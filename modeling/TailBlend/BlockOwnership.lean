import TailBlend.ManagerOwnership
import TailBlend.CacheHitSound

/-! Block ownership over whole runs of the cache manager. -/
namespace TailBlend.Ownership
open BlockPool Manager KVCacheManager List
variable {α : Type} [DecidableEq α]

/-- The invariant of a cache manager; the manager at index `i` serves group `i`. -/
structure KVOwned (kv : KVCacheManager α) : Prop where
  owned : Owned kv.pool kv.managers
  ids : kv.managers.map (fun m => m.groupId) = range kv.managers.length

structure KVKept (kv kv' : KVCacheManager α) : Prop where
  inv : KVOwned kv'
  config : SameConfig kv.pool kv'.pool
  specs : kv'.specs = kv.specs
  maxModelLen : kv'.maxModelLen = kv.maxModelLen
  eagle : kv'.eagleGroupIds = kv.eagleGroupIds

variable {kv kv' : KVCacheManager α}

theorem KVKept.refl (h : KVOwned kv) : KVKept kv kv := ⟨h, SameConfig.refl _, rfl, rfl, rfl⟩

theorem KVKept.trans {a b c : KVCacheManager α} (h : KVKept a b) (h' : KVKept b c) :
    KVKept a c :=
  ⟨h'.inv, h.config.trans h'.config, h'.specs.trans h.specs,
    h'.maxModelLen.trans h.maxModelLen, h'.eagle.trans h.eagle⟩

section loop
variable {ρ : Type} {f : Nat → BlockPool → Manager α → Except PyError (BlockPool × Manager α × ρ)}
  {xs : List ρ}

section
omit [DecidableEq α]

theorem run_of_calls {g : Nat → BlockPool → Manager α → Except PyError (BlockPool × Manager α)}
    (he : (do
      let (kv, _) ← kv.run (fun i p m => do
        let (p, m) ← g i p m
        return (p, m, ()))
      return kv) = Except.ok kv') :
    ∃ f, ∃ us : List Unit, kv.run f = .ok (kv', us) ∧
      ∀ {i p m p' m' x}, f i p m = .ok (p', m', x) → g i p m = .ok (p', m') := by
  rw [seq_ok_iff] at he
  obtain ⟨⟨kv1, us⟩, hrun, he⟩ := he
  cases he
  refine ⟨_, us, hrun, fun {i p m p' m' x} hs => ?_⟩
  rw [seq_ok_iff] at hs
  obtain ⟨⟨q, m1⟩, hstep, hs⟩ := hs
  cases hs
  exact hstep

theorem run_post (I : BlockPool → Prop) (P Q : Nat → Manager α → Prop)
    (hf : ∀ i p m p' m' x, I p → P i m → f i p m = .ok (p', m', x) → I p' ∧ Q i m') (hI : I kv.pool)
    (h : ∀ (i : Nat) m, kv.managers[i]? = some m → P i m) (he : kv.run f = .ok (kv', xs)) :
    I kv'.pool ∧ (∀ (i : Nat) m, kv'.managers[i]? = some m → Q i m) ∧
      kv'.maxModelLen = kv.maxModelLen := by
  unfold run at he
  rw [seq_ok_iff] at he
  obtain ⟨⟨p', ms', ys⟩, hthread, he⟩ := he
  cases he
  have hend := threadM_induct (fun i p done rest => I p ∧ i = done.length ∧
    (∀ (j : Nat) m, done[j]? = some m → Q j m) ∧
    ∀ (j : Nat) m, rest[j]? = some m → P (i + j) m) ?_ []
    (show _ from ⟨hI, rfl, by simp, by simpa using h⟩) hthread
  · exact ⟨hend.1, by simpa using hend.2.2.1, rfl⟩
  rintro i p done m rest q m1 x ⟨hp, rfl, hdone, hrest⟩ hs
  obtain ⟨hq, hm1⟩ := hf _ p m q m1 x hp (hrest 0 m rfl) hs
  refine ⟨hq, by simp, fun j a ha => ?_, fun j a ha => ?_⟩
  · rcases Nat.lt_trichotomy j done.length with hj | rfl | hj
    · rw [getElem?_append_left hj] at ha
      exact hdone j a ha
    · rw [getElem?_concat_length] at ha
      cases ha
      exact hm1
    · rw [getElem?_eq_none (by simp; omega)] at ha
      cases ha
  · rw [Nat.add_assoc, Nat.add_comm 1 j]
    exact hrest (j + 1) a ha

theorem run_length (he : kv.run f = .ok (kv', xs)) : kv'.managers.length = kv.managers.length := by
  unfold run at he
  rw [seq_ok_iff] at he
  obtain ⟨⟨p', ms', ys⟩, hthread, he⟩ := he
  cases he
  exact threadM_length hthread

theorem run_forall (P : Manager α → Prop)
    (hf : ∀ i p m p' m' x, f i p m = .ok (p', m', x) → P m → P m') (h : ∀ m ∈ kv.managers, P m)
    (he : kv.run f = .ok (kv', xs)) : ∀ m ∈ kv'.managers, P m := by
  have hpost := run_post (fun _ => True) (fun _ => P) (fun _ => P)
    (fun i p m p' m' x _ hP hs => ⟨trivial, hf i p m p' m' x hs hP⟩) trivial
    (fun i m hm => h m (mem_of_getElem? hm)) he
  intro m hm
  obtain ⟨i, hi⟩ := mem_iff_getElem?.mp hm
  exact hpost.2.1 i m hi

end

/-- A loop over the managers whose body keeps the ownership of each, together with a side
condition `E` on the pool. -/
theorem run_kept (E : Nat → BlockPool → Prop) (hE : E 0 kv.pool)
    (hf : ∀ p done m rest p' m' x, Owned p (done ++ m :: rest) → SameConfig kv.pool p →
      m ∈ kv.managers → m.groupId = done.length → E done.length p →
      f done.length p m = .ok (p', m', x) →
      Kept p p' done m m' rest ∧ E (done.length + 1) p') (h : KVOwned kv)
    (he : kv.run f = .ok (kv', xs)) : KVKept kv kv' := by
  unfold run at he
  rw [seq_ok_iff] at he
  obtain ⟨⟨p', ms', ys⟩, hthread, he⟩ := he
  cases he
  let I : Nat → BlockPool → List (Manager α) → List (Manager α) → Prop := fun i p done rest =>
    Owned p (done ++ rest) ∧ done.length = i ∧ SameConfig kv.pool p ∧ E i p ∧
    (∀ m ∈ rest, m ∈ kv.managers) ∧
    (done ++ rest).map (fun m => m.groupId) = range kv.managers.length ∧
    (done ++ rest).map (fun m => m.spec) = kv.specs
  have hend : I (0 + kv.managers.length) p' ([] ++ ms') [] := by
    refine threadM_induct I ?_ [] ⟨h.owned, rfl, SameConfig.refl _, hE, fun _ hm => hm, h.ids, rfl⟩
      hthread
    rintro i p done m rest q m1 x ⟨howned, rfl, hcfg, hEi, hsub, hids, hspecs⟩ hstep
    have hid : m.groupId = done.length := by
      have h1 := congrArg (fun l => l[done.length]?) hids
      have hlt : done.length < kv.managers.length := by
        have := congrArg length hids
        simp at this
        omega
      simp only [getElem?_range hlt] at h1
      simpa using h1
    obtain ⟨hk, hE'⟩ := hf p done m rest q m1 x howned hcfg (hsub m (by simp)) hid hEi hstep
    refine ⟨by simpa using hk.owned, by simp, hcfg.trans hk.config, hE', ?_, ?_, ?_⟩
    · exact fun a ha => hsub a (by simp [ha])
    · simpa [hk.groupId] using hids
    · simpa [hk.spec] using hspecs
  obtain ⟨howned, hlen, hcfg, -, -, hids, hspecs⟩ := hend
  simp only [nil_append, append_nil] at howned hids hspecs hlen
  refine ⟨⟨howned, ?_⟩, hcfg, hspecs, rfl, rfl⟩
  simp only
  rw [hids]
  congr 1
  omega

theorem run_kept'
    (hf : ∀ p done m rest p' m' x, Owned p (done ++ m :: rest) → SameConfig kv.pool p →
      m ∈ kv.managers → f done.length p m = .ok (p', m', x) → Kept p p' done m m' rest)
    (h : KVOwned kv) (he : kv.run f = .ok (kv', xs)) : KVKept kv kv' :=
  run_kept (fun _ _ => True) trivial
    (fun p done m rest p' m' x ho hc hm _ _ hs =>
      ⟨hf p done m rest p' m' x ho hc hm hs, trivial⟩) h he

end loop

section operations
variable {kv kv' : KVCacheManager α}

variable {r : α} {t loc ext : Int} {p p' : BlockPool} {ms₁ ms₂ : List (Manager α)}
  {m m' : Manager α} {hits : List (List Nat)}

theorem KVOwned.removeSkipped (h : KVOwned kv) (he : kv.removeSkippedBlocks r t = .ok kv') :
    KVKept kv kv' := by
  obtain ⟨f, us, hrun, hf⟩ := run_of_calls he
  exact run_kept' (fun _ _ _ _ _ _ _ ho _ _ hs => ho.removeSkipped (hf hs)) h hrun

theorem KVOwned.cacheBlocks (h : KVOwned kv) (hcaching : kv.pool.enableCaching = true)
    {req : KVRequest α} (he : kv.coordinatorCacheBlocks req t = .ok kv') : KVKept kv kv' := by
  obtain ⟨f, us, hrun, hf⟩ := run_of_calls he
  exact run_kept' (fun _ _ _ _ _ _ _ ho hcfg _ hs =>
    ho.cache (hcfg.caching.trans hcaching) (hf hs)) h hrun

theorem addComputed_effect {hits : List Nat} (h : Owned p (ms₁ ++ m :: ms₂))
    (hh : GroupHits p m.groupId hits) (hfit : ExternalFits m hits loc ext)
    (he : m.addComputedBlocks p r hits loc ext = .ok (p', m')) :
    (∀ b, p.refCnt b ≤ p'.refCnt b) ∧
      ∀ b, ext ≤ 0 ∨ 0 < p.refCnt b → p'.blockHash b = p.blockHash b := by
  obtain ⟨-, p1, htouch, he⟩ := addComputed_inv he
  have ht := touchComputed_spec h (hh.drop _) htouch
  have hle (b : Nat) : p.refCnt b ≤ p1.refCnt b := by
    rw [ht.refCnt]
    omega
  rcases he with ⟨ret, hpos, hget, -⟩ | ⟨-, rfl, -⟩
  · have hx : 0 < ext := by
      have := windowExternalTokens_le m loc ext
      omega
    obtain ⟨hnn, hlen⟩ := hfit hx
    have hn : 0 ≤ cdiv (loc + ext) m.blockSize - (m.computedList hits (loc + ext)).length := by
      have := numSkippedBlocks_le_cdiv m hnn
      rw [length_computedList]
      omega
    have hnew := getNewBlocks_spec ht.poolOK (h.hash.of_eq ht.config ht.hash ht.cached) hn hget
    refine ⟨fun b => ?_, fun b hb => ?_⟩
    · rw [hnew.refCnt]
      have := hle b
      omega
    have hnot : b ∉ ret := fun hb' => by
      have h1 := (hnew.fresh b hb').2.2
      have h2 := hle b
      omega
    rw [hnew.hash, if_neg hnot, ht.hash]
  · exact ⟨hle, fun b _ => by rw [ht.hash]⟩

/-- Hits of every group, as `get_computed_blocks` returns them. -/
def HitsOK (kv : KVCacheManager α) (hits : List (List Nat)) : Prop :=
  ∀ i, i < kv.managers.length → GroupHits kv.pool i (hits.getD i [])

/-- External tokens come with hits that fit in the computed tokens, and every hit that a
manager after the first one has still to touch is in use. -/
structure ExternalSafe (kv : KVCacheManager α) (hits : List (List Nat)) (total : Int) :
    Prop where
  nonneg : 0 ≤ total
  fits : ∀ (i : Nat) m, kv.managers[i]? = some m →
    ((hits.getD i []).length : Int) ≤ cdiv total m.blockSize
  held : ∀ i, 0 < i → ∀ b ∈ hits.getD i [], b ≠ 0 → 0 < kv.pool.refCnt b

omit [DecidableEq α] in
theorem getElem?_of_specs {kv kv' : KVCacheManager α} (hs : kv'.specs = kv.specs) {i : Nat}
    (hm : kv'.managers[i]? = some m') : ∃ m, kv.managers[i]? = some m ∧ m'.spec = m.spec := by
  have h1 := congrArg (fun l => l[i]?) hs
  simp only [specs, getElem?_map, hm] at h1
  obtain ⟨m, hm', heq⟩ := Option.map_eq_some_iff.mp h1.symm
  exact ⟨m, hm', heq.symm⟩

theorem allocateComputed_effect {hits : List Nat} (h : Owned p (ms₁ ++ m :: ms₂))
    (hh : GroupHits p m.groupId hits) (hfit : ExternalFits m hits loc ext)
    (he : m.allocateNewComputedBlocks p r hits loc ext = .ok (p', m')) :
    Kept p p' ms₁ m m' ms₂ ∧ (∀ b, p.refCnt b ≤ p'.refCnt b) ∧
      ∀ b, ext ≤ 0 ∨ 0 < p.refCnt b → p'.blockHash b = p.blockHash b := by
  unfold Manager.allocateNewComputedBlocks at he
  split at he
  · split_ifs at he
    cases he
    exact ⟨Kept.refl h, fun _ => le_rfl, fun _ _ => rfl⟩
  split_ifs at he
  · cases he
    exact ⟨Kept.refl h, fun _ => le_rfl, fun _ _ => rfl⟩
  · exact ⟨h.addComputed hh hfit he, addComputed_effect h hh hfit he⟩

/-- What the managers from index `i` on still need while hits are appended: their hits, and
with external tokens a use of each. -/
def HitsFrom (n : Nat) (hits : List (List Nat)) (ext : Int) (i : Nat) (p : BlockPool) : Prop :=
  ∀ j, i ≤ j → j < n → GroupHits p j (hits.getD j []) ∧
    (0 < ext → 0 < j → ∀ b ∈ hits.getD j [], b ≠ 0 → 0 < p.refCnt b)

omit [DecidableEq α] in
theorem HitsOK.hitsFrom {total : Int} (h : HitsOK kv hits)
    (hsafe : 0 < ext → ExternalSafe kv hits total) :
    HitsFrom kv.managers.length hits ext 0 kv.pool :=
  fun j _ hj => ⟨h j hj, fun hx h0 => (hsafe hx).held j h0⟩

theorem HitsFrom.step {n i : Nat} (h : HitsFrom n hits ext i p)
    (href : ∀ b, p.refCnt b ≤ p'.refCnt b)
    (hhash : ∀ b, ext ≤ 0 ∨ 0 < p.refCnt b → p'.blockHash b = p.blockHash b) :
    HitsFrom n hits ext (i + 1) p' := by
  intro j hj hjlt
  obtain ⟨hgj, hheld⟩ := h j (by omega) hjlt
  refine ⟨⟨hgj.once, fun b hb hb0 => ?_⟩, fun hx h0 b hb hb0 => ?_⟩
  · rw [hhash b ?_]
    · exact hgj.key b hb hb0
    · by_cases hx : 0 < ext
      · exact .inr (hheld hx (by omega) b hb hb0)
      · exact .inl (by omega)
  · exact (hheld hx h0 b hb hb0).trans_le (href b)

theorem KVOwned.addComputed (h : KVOwned kv) (hh : HitsOK kv hits)
    (hsafe : 0 < ext → ExternalSafe kv hits (loc + ext))
    (he : kv.allocateNewComputedBlocks r hits loc ext = .ok kv') : KVKept kv kv' := by
  obtain ⟨f, us, hrun, hf⟩ := run_of_calls he
  refine run_kept (HitsFrom kv.managers.length hits ext) (hh.hitsFrom hsafe) ?_ h hrun
  intro p done m rest p' m' x ho hcfg hmem hid hE hs
  have hget : kv.managers[done.length]? = some m := by
    obtain ⟨k, hk⟩ := mem_iff_getElem?.mp hmem
    have h1 := congrArg (fun l => l[k]?) h.ids
    have hklt : k < kv.managers.length := (List.getElem?_eq_some_iff.mp hk).1
    simp only [List.getElem?_map, hk, Option.map_some, List.getElem?_range hklt,
      Option.some.injEq] at h1
    rw [← hid, h1]
    exact hk
  have hlt := (List.getElem?_eq_some_iff.mp hget).1
  obtain ⟨hk, href, hhash⟩ := allocateComputed_effect ho (hid ▸ (hE done.length le_rfl hlt).1)
    (fun hx => ⟨(hsafe hx).nonneg, (hsafe hx).fits done.length m hget⟩) (hf hs)
  exact ⟨hk, hE.step href hhash⟩

def NoBlocks (kv : KVCacheManager α) (r : α) : Prop := ∀ m ∈ kv.managers, m.blocks r = []

theorem removeSkipped_noBlocks (hb : m.blocks r = [])
    (he : m.removeSkippedBlocks p r t = .ok (p', m')) : p' = p := by
  refine (removeSkipped_moves (fun q a => q = p ∧ a.blocks r = []) ⟨rfl, hb⟩ ?_ he).1
  rintro q a l removed ⟨rfl, ha⟩ hmove
  have hl : l = [] := by
    have := hmove.length
    simpa [ha] using this
  have hr : removed = [] := by
    rw [eq_nil_iff_forall_not_mem]
    intro b hm
    have h1 := hmove.count b (hmove.nonnull b hm)
    have h2 := count_pos_iff.mpr hm
    simp [ha] at h1
    omega
  subst hl hr
  simp [freeBlocks, setBlocks, blocks]

theorem removeSkipped_pool_hash (he : m.removeSkippedBlocks p r t = .ok (p', m')) :
    p'.blockHash = p.blockHash :=
  removeSkipped_moves (fun q _ => q.blockHash = p.blockHash) rfl
    (fun _ _ _ _ hq _ => hq) he

theorem removeSkipped_hash (he : kv.removeSkippedBlocks r t = .ok kv') :
    kv'.pool.blockHash = kv.pool.blockHash := by
  obtain ⟨f, us, hrun, hf⟩ := run_of_calls he
  exact (run_post (fun p => p.blockHash = kv.pool.blockHash) (fun _ _ => True) (fun _ _ => True)
    (fun _ _ _ _ _ _ hp _ hs => ⟨(removeSkipped_pool_hash (hf hs)).trans hp, trivial⟩) rfl
    (fun _ _ _ => trivial) hrun).1

theorem KVOwned.removeSkipped_pool (hn : NoBlocks kv r)
    (he : kv.removeSkippedBlocks r t = .ok kv') : kv'.pool = kv.pool := by
  obtain ⟨f, us, hrun, hf⟩ := run_of_calls he
  exact (run_post (fun p => p = kv.pool) (fun _ m => m.blocks r = []) (fun _ _ => True)
    (fun _ _ _ _ _ _ hp hm hs => ⟨(removeSkipped_noBlocks hm (hf hs)).trans hp, trivial⟩) rfl
    (fun _ m hm => hn m (mem_of_getElem? hm)) hrun).1

/-- What `allocate_slots` needs of its arguments: sound hits, safe external tokens for a
request without blocks, and a first token for align mode. -/
structure SlotsOK (kv : KVCacheManager α) (req : KVRequest α) (a : SlotArgs) : Prop where
  hits : HitsOK kv (kv.newComputedBlockList a)
  external : 0 < a.numExternalComputedTokens → NoBlocks kv req.requestId ∧
    ExternalSafe kv (kv.newComputedBlockList a)
      (numLocalComputedTokens req a + a.numExternalComputedTokens)
  first : ∀ m ∈ kv.managers, FirstTokens m req.requestId (kv.numTokensMainModel req a)

end operations

section allocateSlots
variable {kv kv' : KVCacheManager α} {req : KVRequest α} {a : SlotArgs}

variable {r : α} {m m' : Manager α}

theorem removeSkipped_allocated {p p' : BlockPool} {t : Int}
    (he : m.removeSkippedBlocks p r t = .ok (p', m')) :
    m'.allocatedBlockReqs = m.allocatedBlockReqs :=
  removeSkipped_moves (fun _ a => a.allocatedBlockReqs = m.allocatedBlockReqs) rfl
    (fun _ _ _ _ ha _ => ha) he

theorem allocateComputed_allocated {p p' : BlockPool} {hits : List Nat}
    {loc ext : Int} (he : m.allocateNewComputedBlocks p r hits loc ext = .ok (p', m')) :
    m'.allocatedBlockReqs = m.allocatedBlockReqs := by
  unfold Manager.allocateNewComputedBlocks at he
  split at he
  · split_ifs at he
    cases he
    rfl
  split_ifs at he
  · cases he
    rfl
  · obtain ⟨-, p1, -, ⟨ret, -, -, rfl⟩ | ⟨-, -, rfl⟩⟩ := addComputed_inv he
    · simp [setBlocks, withComputed]
    · rfl

theorem removeSkipped_first {t tm : Int} (hf : ∀ m ∈ kv.managers, FirstTokens m r tm)
    (he : kv.removeSkippedBlocks r t = .ok kv') : ∀ m ∈ kv'.managers, FirstTokens m r tm := by
  obtain ⟨f, us, hrun, hstep⟩ := run_of_calls he
  refine run_forall (fun m => FirstTokens m r tm) (fun i p m p' m' x hs hP => ?_) hf hrun
  rw [FirstTokens, removeSkipped_allocated (hstep hs)]
  exact hP

theorem addComputed_first {hits : List (List Nat)} {loc ext tm : Int}
    (hf : ∀ m ∈ kv.managers, FirstTokens m r tm)
    (he : kv.allocateNewComputedBlocks r hits loc ext = .ok kv') :
    ∀ m ∈ kv'.managers, FirstTokens m r tm := by
  obtain ⟨f, us, hrun, hstep⟩ := run_of_calls he
  refine run_forall (fun m => FirstTokens m r tm) (fun i p m p' m' x hs hP => ?_) hf hrun
  rw [FirstTokens, allocateComputed_allocated (hstep hs)]
  exact hP

theorem KVOwned.commitSlots (h : KVOwned kv)
    (hhits : HitsOK kv (kv.newComputedBlockList a))
    (hext : 0 < a.numExternalComputedTokens → ExternalSafe kv (kv.newComputedBlockList a)
      (numLocalComputedTokens req a + a.numExternalComputedTokens))
    (hfirst : ∀ m ∈ kv.managers, FirstTokens m req.requestId (kv.numTokensMainModel req a))
    {xs : List (List Nat)} (he : kv.commitSlots req a = .ok (kv', xs)) : KVKept kv kv' := by
  unfold KVCacheManager.commitSlots at he
  simp only [seq_ok_iff] at he
  obtain ⟨kv1, hcomp, ⟨kv2, ys⟩, halloc, kv3, hcache, he⟩ := he
  cases he
  have h1 : KVKept kv kv1 ∧ ∀ m ∈ kv1.managers,
      FirstTokens m req.requestId (kv.numTokensMainModel req a) := by
    unfold commitComputed at hcomp
    simp only at hcomp
    split_ifs at hcomp
    · exact ⟨h.addComputed hhits hext hcomp, addComputed_first hfirst hcomp⟩
    · cases hcomp
      exact ⟨KVKept.refl h, hfirst⟩
  have hmain : kv1.numTokensMainModel req a = kv.numTokensMainModel req a := by
    simp only [numTokensMainModel, totalComputedTokens, h1.1.maxModelLen]
  have h2 := h1.1.trans (run_kept'
    (fun _ _ m _ _ _ _ ho _ hm hs => ho.allocate ((hmain ▸ h1.2) m hm) hs) h1.1.inv halloc)
  unfold commitCache at hcache
  split_ifs at hcache with hoff
  · cases hcache
    exact h2
  · have hcaching : kv2.pool.enableCaching = true := by
      simpa using fun h => hoff (.inl h)
    exact h2.trans (h2.inv.cacheBlocks hcaching hcache)

/-- `allocate_slots` changes nothing, or it drops the skipped blocks, with new blocks or without. -/
theorem allocateSlots_inv {res : Option (List (List Nat))}
    (he : kv.allocateSlots req a = .ok (kv', res)) :
    kv' = kv ∨ ∃ kv1,
      kv.removeSkippedBlocks req.requestId (kv.totalComputedTokens req a) = .ok kv1 ∧
        (kv' = kv1 ∨ ∃ xs, kv1.commitSlots req a = .ok (kv', xs)) := by
  unfold allocateSlots at he
  split_ifs at he
  rw [seq_ok_iff] at he
  obtain ⟨fits, -, he⟩ := he
  split_ifs at he
  · simp only [seq_ok_iff] at he
    obtain ⟨kv1, hrem, n, -, he⟩ := he
    refine .inr ⟨kv1, hrem, ?_⟩
    split_ifs at he
    · cases he
      exact .inl rfl
    rw [seq_ok_iff] at he
    obtain ⟨⟨kv2, xs⟩, hcommit, he⟩ := he
    cases he
    exact .inr ⟨xs, hcommit⟩
  · cases he
    exact .inl rfl

theorem KVOwned.allocateSlots (h : KVOwned kv) (hok : SlotsOK kv req a)
    {xs : Option (List (List Nat))} (he : kv.allocateSlots req a = .ok (kv', xs)) :
    KVKept kv kv' := by
  obtain rfl | ⟨kv1, hrem, hend⟩ := allocateSlots_inv he
  · exact KVKept.refl h
  have h1 := h.removeSkipped hrem
  obtain rfl | ⟨ys, hcommit⟩ := hend
  · exact h1
  have hlen : kv1.managers.length = kv.managers.length := by
    have := congrArg length h1.specs
    simpa [specs] using this
  have hlist : kv1.newComputedBlockList a = kv.newComputedBlockList a := by
    have hempty : kv1.emptyBlocks = kv.emptyBlocks := by
      simp only [emptyBlocks, map_const', hlen]
    simp only [newComputedBlockList, hempty]
  have hmain : kv1.numTokensMainModel req a = kv.numTokensMainModel req a := by
    simp only [numTokensMainModel, totalComputedTokens, h1.maxModelLen]
  -- freeing blocks does not touch the hashes, and a new request has none to free
  have hhash := removeSkipped_hash hrem
  refine h1.trans (h1.inv.commitSlots ?_ ?_ ?_ hcommit)
  · intro i hi
    rw [hlist]
    have := hok.hits i (hlen ▸ hi)
    exact ⟨this.once, fun b hb hb0 => by
      rw [hhash]
      exact this.key b hb hb0⟩
  · intro hx
    obtain ⟨hno, hsafe⟩ := hok.external hx
    rw [hlist]
    refine ⟨hsafe.nonneg, ?_, ?_⟩
    · intro i m hm
      obtain ⟨m0, hm0, hs⟩ := getElem?_of_specs h1.specs hm
      have := hsafe.fits i m0 hm0
      rwa [blockSize, hs]
    · rw [KVOwned.removeSkipped_pool hno hrem]
      exact hsafe.held
  · rw [hmain]
    exact removeSkipped_first hok.first hrem

end allocateSlots
end TailBlend.Ownership
