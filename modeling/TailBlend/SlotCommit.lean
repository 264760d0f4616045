import TailBlend.SlotAllocate
import TailBlend.HybridHit

/-! Appending hits and caching full blocks return in every state that `allocate_slots` can
meet. -/
namespace TailBlend.Ownership
open BlockPool Manager List
variable {α : Type} [DecidableEq α]

/-- Blocks for external tokens inside the window. -/
def externalCount (m : Manager α) (hits : List Nat) (loc ext : Int) : Int :=
  if m.windowExternalTokens loc ext > 0 then
    cdiv (loc + ext) m.blockSize - max (m.numSkippedBlocks (loc + ext)) hits.length
  else 0

/-- What `allocate_new_computed_blocks` takes out of the free queue. -/
def computedCost (p : BlockPool) (m : Manager α) (hits : List Nat) (loc ext : Int) : Int :=
  if m.spec.kind = .crossAttention then 0
  else p.getNumEvictableBlocks (hits.drop (m.numSkippedBlocks (loc + ext))) +
    externalCount m hits loc ext

def computedLen (m : Manager α) (hits : List Nat) (loc ext : Int) : Int :=
  if m.spec.kind = .crossAttention then 0
  else max (m.numSkippedBlocks (loc + ext)) hits.length + externalCount m hits loc ext

structure Listed (m m' : Manager α) (r : α) (hits : List Nat) (loc ext : Int) : Prop where
  other : ∀ a, a ≠ r → SameFor m m' a
  length : ((m'.blocks r).length : Int) = computedLen m hits loc ext
  cached : numCached m' r ≤ max (m.numSkippedBlocks (loc + ext)) hits.length
  allocated : m'.allocatedBlockReqs = m.allocatedBlockReqs
  last : m'.lastStateBlockIdx = m.lastStateBlockIdx

section computed
variable {p : BlockPool} {ms₁ ms₂ : List (Manager α)} {m : Manager α} {r : α}

variable {hits : List Nat} {loc ext : Int}

section
omit [DecidableEq α]

theorem externalCount_nonneg (hfit : ExternalFits m hits loc ext) :
    0 ≤ externalCount m hits loc ext := by
  unfold externalCount
  split_ifs with hpos
  · have hx : 0 < ext := by
      have := windowExternalTokens_le m loc ext
      omega
    obtain ⟨hnn, hle⟩ := hfit hx
    have := numSkippedBlocks_le_cdiv m hnn
    omega
  · exact le_rfl

theorem computedCost_nonneg (hfit : ExternalFits m hits loc ext) :
    0 ≤ computedCost p m hits loc ext := by
  have := externalCount_nonneg hfit
  unfold computedCost
  split_ifs <;> omega

theorem computedCost_mono {q : BlockPool} (m : Manager α) (hits : List Nat) (loc ext : Int)
    (hq : ∀ b, q.refCnt b ≤ p.refCnt b) (hnn : ∀ b, b ≠ 0 → 0 ≤ q.refCnt b) :
    computedCost p m hits loc ext ≤ computedCost q m hits loc ext := by
  have hev (l : List Nat) : p.getNumEvictableBlocks l ≤ q.getNumEvictableBlocks l := by
    refine countP_mono_left (fun b _ hb => ?_)
    simp only [decide_eq_true_eq] at hb ⊢
    have h1 := hq b
    have h2 := hnn b hb.2
    exact ⟨by omega, hb.2⟩
  have := hev (hits.drop (m.numSkippedBlocks (loc + ext)))
  unfold computedCost
  split_ifs <;> omega

end

theorem touchComputed_total {g : Nat} (ho : Owned p (ms₁ ++ m :: ms₂)) (hh : GroupHits p g hits)
    (hoff : p.enableCaching = false → hits = []) : ∃ p', touchComputed p hits = .ok p' := by
  unfold touchComputed
  cases hc : p.enableCaching with
  | true =>
    have hlt : ∀ b ∈ hits, b = 0 ∨ b < p.numGpuBlocks := by
      intro b hb
      by_cases hb0 : b = 0
      · exact .inl hb0
      · obtain ⟨key, hk, -⟩ := hh.key b hb hb0
        exact .inr (ho.hash.cached_lt b key hk).2
    obtain ⟨q, hq, -⟩ := touch_spec ho.pool hlt
    exact ⟨q, hq⟩
  | false => exact ⟨p, by simp [hoff hc]⟩

theorem computed_total (ho : Owned p (ms₁ ++ m :: ms₂)) (hp : Private p (ms₁ ++ m :: ms₂))
    (hidle : Idle m r) (hh : GroupHits p m.groupId hits)
    (hoff : p.enableCaching = false → hits = [])
    (hcross : m.spec.kind = .crossAttention → hits = []) (hfit : ExternalFits m hits loc ext)
    (hcost : computedCost p m hits loc ext ≤ p.numFreeBlocks) :
    ∃ p' m', m.allocateNewComputedBlocks p r hits loc ext = .ok (p', m') ∧
      Private p' (ms₁ ++ m' :: ms₂) ∧ Listed m m' r hits loc ext ∧
      p.numFreeBlocks - computedCost p m hits loc ext ≤ p'.numFreeBlocks := by
  have hext := externalCount_nonneg hfit
  have hncached : numCached m r = 0 := by simp [numCached, Dict.getD, hidle.cached]
  by_cases hk : m.spec.kind = .crossAttention
  · have hnil := hcross hk
    refine ⟨p, m, ?_, hp, ⟨fun a _ => SameFor.refl m a, ?_, by omega, rfl, rfl⟩, ?_⟩
    · simp [allocateNewComputedBlocks, hk, hnil]
    · simp [computedLen, hk, hidle.blocks]
    · simp [computedCost, hk]
  have hrun : m.allocateNewComputedBlocks p r hits loc ext =
      m.addComputedBlocks p r hits loc ext := by
    have hnot : m.numCachedBlock.contains r = false := by simp [Dict.contains, hidle.cached]
    unfold allocateNewComputedBlocks
    split
    · rename_i hk'
      exact absurd hk' hk
    · rw [hnot]
      rfl
  rw [hrun]
  have hcl : computedLen m hits loc ext =
      max (m.numSkippedBlocks (loc + ext)) hits.length + externalCount m hits loc ext := by
    rw [computedLen, if_neg hk]
  simp only [computedCost, if_neg hk] at hcost ⊢
  set k := m.numSkippedBlocks (loc + ext) with hkdef
  set l := m.computedList hits (loc + ext) with hldef
  have hlen : l.length = max k hits.length := by rw [length_computedList]
  have hd := hh.drop k
  obtain ⟨p1, htouch⟩ := touchComputed_total ho hd (fun hc => by simp [hoff hc])
  have ht := touchComputed_spec ho hd htouch
  have hnum := ht.numFree
  have hc : Changed m (m.withComputed r l) r l := changed_of_set rfl rfl rfl
  have hself : numCached (m.withComputed r l) r = l.length := by simp [numCached, withComputed]
  have hother (a : α) (ha : a ≠ r) : SameFor m (m.withComputed r l) a := by
    refine ⟨by rw [hc.blocks, if_neg ha], ?_, Iff.rfl, rfl⟩
    simp [withComputed, ha]
  have hp1 : Private p1 (ms₁ ++ m.withComputed r l :: ms₂) :=
    hp.hit ho hc (fun a ha => (hother a ha).numCached) hself.ge hd ht
  have ho1 : Owned p1 (ms₁ ++ m.withComputed r l :: ms₂) :=
    (ho.hit ht hc (ho.align_self.of_changed hc rfl (by simp [hidle.blocks])) hidle.blocks
      hd.once hd.key).owned
  have hb : (m.withComputed r l).blocks r = l := by rw [hc.blocks, if_pos rfl]
  by_cases hpos : m.windowExternalTokens loc ext > 0
  · have hcount : externalCount m hits loc ext = cdiv (loc + ext) m.blockSize - l.length := by
      rw [externalCount, if_pos hpos, hlen]
    rw [hcount] at hcost hext ⊢
    obtain ⟨p2, ret, hget, hnew⟩ := getNewBlocks_of_le ho1.pool ho1.hash hext (by omega)
    let m' := ((m.withComputed r l).setBlocks r (l ++ ret)).noteNewBlocks ret
    have hres : m.addComputedBlocks p r hits loc ext = .ok (p2, m') := by
      unfold addComputedBlocks
      rw [show pyAssert ((m.blocks r).length = 0) "" = .ok () by simp [hidle.blocks]]
      simp only [bind, Except.bind, ← hkdef, htouch]
      rw [if_pos hpos, hget]
      rfl
    have hc2 : Changed (m.withComputed r l) m' r (l ++ ret) := by
      refine changed_of_set ?_ ?_ ?_ <;> simp [m', setBlocks]
    have hsame := sameFor_noteNewBlocks ((m.withComputed r l).setBlocks r (l ++ ret)) ret
    have hcached (a : α) : numCached m' a = numCached (m.withComputed r l) a := (hsame a).numCached
    refine ⟨p2, m', hres, ?_, ⟨fun a ha => ?_, ?_, ?_, ?_, ?_⟩, ?_⟩
    · exact hp1.extend ho1 hc2 hcached (fun i b hget _ hi => ⟨i, hi, by rwa [hb]⟩) hnew
    · exact ((hother a ha).trans (sameFor_setBlocks _ ha _)).trans (hsame a)
    · have := hnew.length
      rw [hc2.blocks, if_pos rfl, length_append]
      omega
    · rw [hcached, hself, hlen]
    · simp [m', setBlocks, withComputed]
    · simp only [m']
      unfold noteNewBlocks
      split <;> rfl
    · rw [hnew.numFree]
      omega
  · have hcount : externalCount m hits loc ext = 0 := by rw [externalCount, if_neg hpos]
    have hres : m.addComputedBlocks p r hits loc ext = .ok (p1, m.withComputed r l) := by
      unfold addComputedBlocks
      rw [show pyAssert ((m.blocks r).length = 0) "" = .ok () by simp [hidle.blocks]]
      simp only [bind, Except.bind, ← hkdef, htouch]
      rw [if_neg hpos]
      rfl
    refine ⟨p1, _, hres, hp1, ⟨hother, ?_, by rw [hself, hlen], rfl, rfl⟩, by omega⟩
    rw [hb]
    omega

end computed

structure CachedUpTo (m m' : Manager α) (r : α) (t : Int) : Prop where
  other : ∀ a, a ≠ r → SameFor m m' a
  blocks : m'.blocks r = m.blocks r
  cached : numCached m' r = max (numCached m r) (t / m.blockSize).toNat
  allocated : m'.allocatedBlockReqs = m.allocatedBlockReqs
  last : m'.lastStateBlockIdx = m.lastStateBlockIdx

/-- The hash list of a request covers its full hash blocks. -/
def HashesCover (p : BlockPool) (req : KVRequest α) : Prop :=
  req.numTokens / p.hashBlockSize ≤ req.blockHashes.length

section cache
variable {p : BlockPool} {ms₁ ms₂ : List (Manager α)} {m : Manager α} {req : KVRequest α} {t : Int}

omit [DecidableEq α] in
theorem HashesCover.numFull_le (h : HashesCover p req) (h0 : 0 ≤ t) (ht : t ≤ req.numTokens)
    (hdvd : p.hashBlockSize ∣ m.blockSize) :
    (t / m.blockSize).toNat ≤
      (hashesAt req.blockHashes p.hashBlockSize m.blockSize).length ∧
    (t / m.blockSize).toNat ≤ req.blockHashes.length := by
  obtain ⟨n, rfl⟩ := Int.eq_ofNat_of_zero_le h0
  have hpos : 0 < p.hashBlockSize := Nat.pos_of_dvd_of_pos hdvd m.spec.blockSize_pos
  have hn : n / p.hashBlockSize ≤ req.blockHashes.length := by
    have h1 : ((n : Int) / p.hashBlockSize) ≤ req.numTokens / p.hashBlockSize :=
      Int.ediv_le_ediv (by exact_mod_cast hpos) ht
    have h2 := h1.trans h
    exact_mod_cast h2
  refine ⟨CacheHit.length_hashesAt_of_le hdvd hn, ?_⟩
  exact (Nat.div_le_div_left (Nat.le_of_dvd m.spec.blockSize_pos hdvd) hpos).trans hn

theorem baseCache_total (ho : Owned p (ms₁ ++ m :: ms₂)) (hp : Private p (ms₁ ++ m :: ms₂))
    (hcaching : p.enableCaching = true) (hh : HashesCover p req) (h0 : 0 ≤ t)
    (ht : t ≤ req.numTokens) (hdvd : p.hashBlockSize ∣ m.blockSize)
    (hlist : (t / m.blockSize).toNat ≤ (m.blocks req.requestId).length) :
    ∃ p' m', m.baseCacheBlocks p req t = .ok (p', m') ∧ Private p' (ms₁ ++ m' :: ms₂) ∧
      CachedUpTo m m' req.requestId t ∧ p'.numFreeBlocks = p.numFreeBlocks ∧
      ∀ b ∈ ((m.blocks req.requestId).take (numCached m' req.requestId)).drop
        (numCached m req.requestId), b ≠ 0 → (p'.blockHash b).isSome := by
  set r := req.requestId with hr
  set numFull := (t / m.blockSize).toNat with hnf
  unfold baseCacheBlocks
  by_cases hle : m.numCachedBlock.getD r 0 ≥ numFull
  · rw [if_pos hle]
    refine ⟨p, m, rfl, hp, ⟨fun a _ => SameFor.refl m a, rfl, ?_, rfl, rfl⟩, rfl, ?_⟩
    · exact (Nat.max_eq_left hle).symm
    · simp
  rw [if_neg hle]
  obtain ⟨hlen, hlen'⟩ := hh.numFull_le h0 ht hdvd
  have hlt : numCached m r < numFull := by
    unfold numCached
    omega
  set slice := ((m.blocks r).take numFull).drop (numCached m r) with hslice
  have hok : ∃ p', cacheFullBlocksFrom m.groupId p slice
      ((hashesAt req.blockHashes p.hashBlockSize m.blockSize).drop (numCached m r)) = .ok p' := by
    refine cacheFullBlocksFrom_ok ?_ ?_ ?_
    · intro b hb hb0
      obtain ⟨i, hi⟩ := mem_iff_getElem?.mp hb
      rw [getElem?_drop, getElem?_take] at hi
      split_ifs at hi
      exact (hp m (by simp) r _ b (by omega) hi hb0).1
    · intro b hb0
      have hsub : slice.Sublist (m.blocks r) := (drop_sublist _ _).trans (take_sublist _ _)
      exact (hsub.count_le b).trans (ho.once m (by simp) r b hb0)
    · rw [length_drop, length_drop, length_take]
      omega
  obtain ⟨q, hrun⟩ := hok
  obtain ⟨p', hfull⟩ : ∃ p', p.cacheFullBlocks req.blockHashes req.allTokenIds (m.blocks r)
      (numCached m r) numFull m.blockSize m.groupId = .ok p' :=
    cacheFullBlocks_ok hlt hlen' hdvd hlen hlist hrun
  have hf := cacheFullBlocks_spec ho.hash hcaching (ho.lt m (by simp) r) hfull hlt
  let m' : Manager α := { m.setBlocks r (m.blocks r) with
    numCachedBlock := m.numCachedBlock.set r numFull }
  have hc : Changed m m' r (m.blocks r) := changed_of_set rfl rfl rfl
  have hself : numCached m' r = numFull := by simp [numCached, m']
  have hother (a : α) (ha : a ≠ r) : SameFor m m' a :=
    ⟨by rw [hc.blocks, if_neg ha], by simp [m', ha], Iff.rfl, rfl⟩
  refine ⟨p', m', ?_, ?_, ⟨hother, ?_, ?_, rfl, rfl⟩, hf.numFree, ?_⟩
  · have hfull' := hfull
    unfold numCached at hfull'
    rw [hfull']
    rfl
  · exact hp.fill ho hc (fun a ha => (hother a ha).numCached) hself hlt.le hf
  · rw [hc.blocks, if_pos rfl]
  · rw [hself]
    exact (Nat.max_eq_right hlt.le).symm
  · rw [hself]
    exact hf.filled

theorem cache_total (ho : Owned p (ms₁ ++ m :: ms₂)) (hp : Private p (ms₁ ++ m :: ms₂))
    (hcaching : p.enableCaching = true) (hk : m.spec.kind ≠ .crossAttention)
    (hh : HashesCover p req) (h0 : 0 ≤ t) (ht : t ≤ req.numTokens)
    (hdvd : p.hashBlockSize ∣ m.blockSize)
    (hlist : (t / m.blockSize).toNat ≤ (m.blocks req.requestId).length) :
    ∃ p' m', m.cacheBlocks p req t = .ok (p', m') ∧ Private p' (ms₁ ++ m' :: ms₂) ∧
      CachedUpTo m m' req.requestId t ∧ p'.numFreeBlocks = p.numFreeBlocks := by
  obtain ⟨p', m', hrun, hpriv, hc, hnum, hfilled⟩ :=
    baseCache_total ho hp hcaching hh h0 ht hdvd hlist
  unfold cacheBlocks
  split
  · rename_i h
    exact absurd h hk
  · let newlyCached : List Nat := (((m'.blocks req.requestId).take
      (m'.numCachedBlock.getD req.requestId 0)).drop
        (m.numCachedBlock.getD req.requestId 0)).filter (fun b => b ≠ 0)
    let m2 : Manager α := { m' with
      cachedBlocksThisStep := m'.cachedBlocksThisStep ++ newlyCached.filterMap p'.blockHash }
    refine ⟨p', m2, ?_, ?_, ?_, hnum⟩
    · have hassert : pyAssert (∀ b ∈ newlyCached, (p'.blockHash b).isSome) "" = .ok () := by
        rw [pyAssert_eq_ok]
        intro b hb
        rw [mem_filter] at hb
        refine hfilled b ?_ (by simpa using hb.2)
        have := hb.1
        rwa [hc.blocks] at this
      rw [hrun]
      simp only [bind, Except.bind]
      rw [hassert]
      rfl
    · intro a ha
      have hmem : a = m2 ∨ a ∈ ms₁ ++ ms₂ := by
        simp only [mem_append, mem_cons] at ha ⊢
        tauto
      rcases hmem with rfl | hmem
      · exact hpriv m' (by simp)
      · exact hpriv a (by
          simp only [mem_append] at hmem ⊢
          tauto)
    · exact ⟨fun a ha => ⟨(hc.other a ha).blocks, (hc.other a ha).cached,
        (hc.other a ha).allocated, (hc.other a ha).last⟩, hc.blocks, hc.cached, hc.allocated,
        hc.last⟩
  · exact ⟨p', m', hrun, hpriv, hc, hnum⟩

theorem CachedUpTo.serving {m m' : Manager α} {r : α} {g : Int} (h : CachedUpTo m m' r t)
    (hs : m'.spec = m.spec) (hk : m.spec.kind ≠ .crossAttention) (hg : Serving m r g)
    (h0 : 0 ≤ t) (ht : t ≤ g) : Serving m' r g := by
  have hbs : (0 : Int) < m.blockSize := by exact_mod_cast m.spec.blockSize_pos
  refine ⟨?_, ?_, ?_, ?_, ?_⟩
  · rw [h.blocks, Manager.blockSize, hs]
    exact hg.covers
  · have h1 := (ht.trans (hg.covers hk))
    have h2 : t / m.blockSize ≤ (m.blocks r).length - specBlocks m.spec := by
      have := Int.ediv_le_ediv hbs h1
      rwa [Int.mul_ediv_cancel _ hbs.ne'] at this
    have h3 := hg.cached
    have h4 : 0 ≤ t / m.blockSize := Int.ediv_nonneg h0 hbs.le
    rw [h.blocks, h.cached, hs]
    omega
  · rw [hs, h.allocated]
    exact hg.allocated
  · rw [h.blocks, h.last]
    exact hg.last
  · rw [Plain, hs, h.allocated, h.last]
    exact hg.plain

end cache
end TailBlend.Ownership
