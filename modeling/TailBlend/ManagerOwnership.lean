import TailBlend.Ownership

/-! Every method of a manager keeps the ownership invariant. -/
namespace TailBlend.Ownership
open BlockPool Manager List
variable {α : Type} [DecidableEq α]

theorem count_set_null (bs : List Nat) {i : Nat} (hi : i < bs.length) {b : Nat} (hb : b ≠ 0) :
    (bs.set i 0).count b + (if bs.getD i 0 = b then 1 else 0) = bs.count b := by
  have hget : bs.getD i 0 = bs[i] := by simp [hi]
  rw [count_set hi, hget]
  have hpos : bs[i] = b → 0 < bs.count b := by
    rintro rfl
    exact count_pos_iff.mpr (getElem_mem hi)
  by_cases h : bs[i] = b
  · simp [h, Ne.symm hb]
    omega
  · simp [h, Ne.symm hb]

theorem nullSkipped_length (n : Nat) (bs : List Nat) : (nullSkipped n bs).1.length = bs.length := by
  induction n generalizing bs with
  | zero => rfl
  | succ i ih =>
    unfold nullSkipped
    split
    · rfl
    · simp [ih]

variable {n : Nat} {bs : List Nat} {k : Int} {m m' : Manager α}

theorem nullSkipped_count (hn : n ≤ bs.length) {b : Nat} (hb : b ≠ 0) :
    (nullSkipped n bs).1.count b + (nullSkipped n bs).2.count b = bs.count b := by
  induction n generalizing bs with
  | zero => simp [nullSkipped]
  | succ i ih =>
    unfold nullSkipped
    split
    · simp
    have hlen : i ≤ (bs.set i 0).length := by
      simp only [length_set]
      omega
    have h1 := ih hlen
    have h2 := count_set_null bs (i := i) (by omega) hb
    simp only [count_cons, beq_iff_eq]
    omega

theorem nullSkipped_nonnull (n : Nat) (bs : List Nat) : ∀ b ∈ (nullSkipped n bs).2, b ≠ 0 := by
  induction n generalizing bs with
  | zero => simp [nullSkipped]
  | succ k ih =>
    unfold nullSkipped
    split
    · simp
    rename_i h
    intro b hb
    rcases mem_cons.mp hb with rfl | hb
    · exact h
    · exact ih _ b hb

theorem nullSkipped_null (n : Nat) (bs : List Nat) (i : Nat) :
    (nullSkipped n bs).1[i]? = bs[i]? ∨ (nullSkipped n bs).1[i]? = some 0 := by
  induction n generalizing bs with
  | zero => exact .inl rfl
  | succ k ih =>
    unfold nullSkipped
    split
    · exact .inl rfl
    rcases ih (bs.set k 0) with h | h
    · by_cases hik : k = i
      · subst hik
        by_cases hlt : k < bs.length
        · exact .inr (by rw [h]; simp [hlt])
        · exact .inl (by rw [h]; simp [hlt])
      · exact .inl (by rw [h, getElem?_set_ne hik])
    · exact .inr h

theorem reuseSpeculative_spec {idx : Int} {bs' : List Nat} (h0 : 0 ≤ idx)
    (hn : idx + n ≤ bs.length) (h : reuseSpeculative k n idx bs = .ok bs') :
    (∀ b, b ≠ 0 → bs'.count b = bs.count b) ∧
      (bs'.length : Int) = bs.length + min n (k - idx).toNat := by
  induction n generalizing idx bs with
  | zero =>
    cases h
    simp
  | succ n ih =>
    unfold reuseSpeculative at h
    split_ifs at h with hlt
    · rw [pyIndex_of_nonneg h0 (by omega), pyIndex_of_nonneg h0 (by push_cast; omega)] at h
      have hi : idx.toNat < bs.length := by omega
      obtain ⟨hcount, hlen⟩ := ih (by omega) (by simp; omega) h
      refine ⟨?_, ?_⟩
      · intro b hb
        have h1 := count_set_null (bs ++ [bs.getD idx.toNat 0]) (i := idx.toNat)
          (by simp; omega) hb
        have hget : (bs ++ [bs.getD idx.toNat 0]).getD idx.toNat 0 = bs.getD idx.toNat 0 := by
          simp [getElem?_append_left hi]
        rw [hcount b hb]
        rw [hget, count_append] at h1
        simp only [count_cons, count_nil, beq_iff_eq] at h1
        omega
      · simp only [length_set, length_append, length_cons, length_nil] at hlen
        omega
    · cases h
      refine ⟨fun _ _ => rfl, ?_⟩
      omega

theorem reuseSpeculative_ok {idx : Int} (h0 : 0 ≤ idx) (hn : idx + n ≤ bs.length) :
    ∃ bs', reuseSpeculative k n idx bs = .ok bs' := by
  induction n generalizing idx bs with
  | zero => exact ⟨bs, rfl⟩
  | succ n ih =>
    unfold reuseSpeculative
    split_ifs with hlt
    · rw [pyIndex_of_nonneg h0 (by omega), pyIndex_of_nonneg h0 (by push_cast; omega)]
      exact ih (by omega) (by simp; omega)
    · exact ⟨bs, rfl⟩

theorem AlignOK.of_changed {r : α} {l : List Nat} (h : AlignOK m)
    (hc : Changed m m' r l) (hreqs : m'.allocatedBlockReqs = m.allocatedBlockReqs)
    (hlen : (m.blocks r).length ≤ l.length) : AlignOK m' := by
  intro n hk a hr
  rw [hc.spec] at hk
  rw [hreqs] at hr
  have := h n hk a hr
  rw [hc.blocks]
  split
  · subst a
    omega
  · exact this

/-- Some blocks of a list are replaced by null blocks and freed. -/
structure ReleaseMove (m : Manager α) (r : α) (l removed : List Nat) : Prop where
  count : ∀ b, b ≠ 0 → l.count b + removed.count b = (m.blocks r).count b
  length : l.length = (m.blocks r).length
  null : ∀ i : Nat, l[i]? = (m.blocks r)[i]? ∨ l[i]? = some 0
  nonnull : ∀ b ∈ removed, b ≠ 0

theorem removeSkipped_moves {p p' : BlockPool} {r : α} {t : Int}
    (I : BlockPool → Manager α → Prop) (h0 : I p m)
    (hmove : ∀ q a l removed, I q a → ReleaseMove a r l removed →
      I (q.freeBlocks removed) (a.setBlocks r l))
    (he : m.removeSkippedBlocks p r t = .ok (p', m')) : I p' m' := by
  have hbase (t : Int) : I (m.baseRemoveSkippedBlocks p r t).1
      (m.baseRemoveSkippedBlocks p r t).2 := by
    unfold baseRemoveSkippedBlocks
    simp only
    split_ifs
    · exact h0
    · exact hmove p m _ _ h0 ⟨fun b hb => nullSkipped_count (Nat.min_le_right _ _) hb,
        nullSkipped_length _ _, nullSkipped_null _ _, nullSkipped_nonnull _ _⟩
  have hlast {q : BlockPool} {a : Manager α} (hI : I q a) {t : Int}
      (hl : a.freeLastState q r t = .ok (p', m')) : I p' m' := by
    unfold freeLastState at hl
    split at hl
    · cases hl
      exact hI
    split_ifs at hl
    · split at hl
      · cases hl
      rename_i i hi
      simp only at hl
      split_ifs at hl with hb0
      · cases hl
        refine hmove q a _ _ hI ⟨fun b hb => ?_, by simp, fun j => ?_, by simpa using hb0⟩
        · have := count_set_null _ (pyIndex_lt hi) hb
          simp only [count_cons, count_nil, beq_iff_eq]
          omega
        by_cases hij : i = j
        · subst hij
          simp [pyIndex_lt hi]
        · simp [hij]
      · cases hl
        exact hI
    · cases hl
      exact hI
  unfold removeSkippedBlocks at he
  split at he
  · split_ifs at he
    · exact hlast (hbase _) he
    · cases he
      exact hbase _
  · have := hbase t
    rwa [Except.ok.inj he] at this

section methods
variable {p p' : BlockPool} {ms₁ ms₂ : List (Manager α)} {m m' : Manager α} {r : α}

variable (h : Owned p (ms₁ ++ m :: ms₂))
include h

theorem Owned.align_self : AlignOK m := h.align m (by simp)

theorem Owned.free (r : α) : Kept p (m.free p r).1 ms₁ m (m.free p r).2 ms₂ := by
  have hc : Changed m (m.free p r).2 r [] := by
    refine changed_of_erase ?_ ?_ rfl <;>
      (simp only [Manager.free]; split <;> rfl)
  have ha : AlignOK (m.free p r).2 := by
    intro n hk a hr
    rw [hc.spec] at hk
    rw [hc.blocks]
    simp only [Manager.free, hk, mem_filter, decide_eq_true_eq] at hr
    rw [if_neg hr.2]
    exact h.align_self n hk a hr.1
  exact h.release (m.blocks r).reverse hc ha (fun b _ => by simp)

variable {t : Int} {xs hits : List Nat} {req : KVRequest α}

theorem Owned.removeSkipped (he : m.removeSkippedBlocks p r t = .ok (p', m')) :
    Kept p p' ms₁ m m' ms₂ := by
  refine removeSkipped_moves (fun q a => Kept p q ms₁ m a ms₂) (Kept.refl h) ?_ he
  intro q a l removed hk hmove
  have hc : Changed a (a.setBlocks r l) r l := changed_of_set rfl rfl rfl
  exact hk.trans (hk.owned.release removed hc
    (hk.owned.align_self.of_changed hc rfl hmove.length.ge) hmove.count)

section
omit [DecidableEq α] h

section
variable (m : Manager α) (ids : List Nat)

@[simp] theorem noteNewBlocks_reqToBlocks : (m.noteNewBlocks ids).reqToBlocks = m.reqToBlocks := by
  unfold noteNewBlocks
  split <;> rfl

@[simp] theorem noteNewBlocks_spec : (m.noteNewBlocks ids).spec = m.spec := by
  unfold noteNewBlocks
  split <;> rfl

@[simp] theorem noteNewBlocks_groupId : (m.noteNewBlocks ids).groupId = m.groupId := by
  unfold noteNewBlocks
  split <;> rfl

@[simp] theorem noteNewBlocks_numCachedBlock :
    (m.noteNewBlocks ids).numCachedBlock = m.numCachedBlock := by
  unfold noteNewBlocks
  split <;> rfl

@[simp] theorem noteNewBlocks_allocated :
    (m.noteNewBlocks ids).allocatedBlockReqs = m.allocatedBlockReqs := by
  unfold noteNewBlocks
  split <;> rfl

end

end

theorem changed_self (r : α) : Kept p p ms₁ m (m.setBlocks r (m.blocks r)) ms₂ := by
  have hc : Changed m (m.setBlocks r (m.blocks r)) r (m.blocks r) := changed_of_set rfl rfl rfl
  have := h.release [] hc (h.align_self.of_changed hc rfl le_rfl) (by simp)
  simpa [freeBlocks] using this

theorem Owned.baseAllocate (he : m.baseAllocateNewBlocks p r t = .ok (p', m', xs)) :
    Kept p p' ms₁ m m' ms₂ := by
  unfold baseAllocateNewBlocks at he
  simp only at he
  split_ifs at he with hle
  · cases he
    exact changed_self h r
  rw [seq_ok_iff] at he
  obtain ⟨⟨q, ret⟩, hget, he⟩ := he
  cases he
  have hnew := getNewBlocks_spec h.pool h.hash (by omega) hget
  have hc : Changed m ((m.setBlocks r (m.blocks r ++ ret)).noteNewBlocks ret) r
      (m.blocks r ++ ret) := by
    refine changed_of_set ?_ ?_ ?_ <;> simp [setBlocks]
  exact h.extend hnew hc (h.align_self.of_changed hc (by simp [setBlocks]) (by simp))
    (fun _ _ => rfl)

omit h in
theorem alignMoved_spec {n : Nat} {moved : List Nat} (ha : AlignOK m)
    (hk : m.spec.kind = .mamba .align n) (hlt : (m.blocks r).length < k)
    (he : m.alignMoved n r k = .ok moved) :
    (∀ b, b ≠ 0 → moved.count b = (m.blocks r).count b) ∧ (moved.length : Int) ≤ k := by
  have hlen : r ∈ m.allocatedBlockReqs → 1 + n ≤ (m.blocks r).length := ha n hk r
  unfold alignMoved at he
  simp only at he
  set padded := m.blocks r ++ replicate (k - n - 1 - (m.blocks r).length).toNat 0 with hpad
  have hpadlen : padded.length = (m.blocks r).length + (k - n - 1 - (m.blocks r).length).toNat := by
    simp [hpad]
  have hpadcount : ∀ b, b ≠ 0 → padded.count b = (m.blocks r).count b := by
    intro b hb
    simp [hpad, count_replicate, Ne.symm hb]
  split_ifs at he with hr
  · have h1 := hlen hr
    obtain ⟨hcount, hl⟩ := reuseSpeculative_spec (by omega) (by omega) he
    exact ⟨fun b hb => (hcount b hb).trans (hpadcount b hb), by omega⟩
  · rw [← Except.ok.inj he]
    exact ⟨hpadcount, by omega⟩

theorem Owned.alignAllocate {n : Nat} (hk : m.spec.kind = .mamba .align n)
    (ht : r ∈ m.allocatedBlockReqs ∨ 0 < t)
    (he : m.alignAllocateNewBlocks p n r t = .ok (p', m', xs)) : Kept p p' ms₁ m m' ms₂ := by
  unfold alignAllocateNewBlocks at he
  by_cases heq : cdiv t m.blockSize + n = (m.blocks r).length
  · rw [if_pos heq] at he
    cases he
    exact changed_self h r
  by_cases hlt : cdiv t m.blockSize + n < (m.blocks r).length
  · rw [if_neg heq, if_pos hlt] at he
    cases he
  rw [if_neg heq, if_neg hlt] at he
  simp only [seq_ok_iff] at he
  obtain ⟨moved, hmoved, -, hassert, ⟨q, ret⟩, hget, he⟩ := he
  cases he
  obtain ⟨hcount, hle⟩ := alignMoved_spec h.align_self hk (by omega) hmoved
  have hnew := getNewBlocks_spec h.pool h.hash (by omega) hget
  have hbs : ((moved ++ ret).length : Int) = cdiv t m.blockSize + n := by
    have := hnew.length
    simp only [length_append]
    omega
  refine h.extend hnew (changed_of_set rfl rfl rfl) ?_ hcount
  intro n' hk' a ha
  have hn : n' = n := by
    have hk'' : m.spec.kind = .mamba .align n' := hk'
    rw [hk] at hk''
    cases hk''
    rfl
  subst hn
  simp only [blocks, setBlocks, Dict.getD_set]
  split
  · have hpos : 0 < cdiv t m.blockSize := by
      rcases ht with hr | ht
      · have := h.align_self n' hk r hr
        omega
      · exact cdiv_pos ht m.spec.blockSize_pos
    omega
  rename_i hne
  have ha' : a ∈ m.allocatedBlockReqs := by
    by_cases hr : r ∈ m.allocatedBlockReqs
    · simpa [hr] using ha
    · simpa [hr, hne] using ha
  exact h.align_self n' hk a ha'

/-- In align mode a request gets its first blocks with at least one token. -/
def FirstTokens (m : Manager α) (r : α) (numTokensMainModel : Int) : Prop :=
  r ∈ m.allocatedBlockReqs ∨ 0 < numTokensMainModel

theorem Owned.allocate {tm : Int} (ht : FirstTokens m r tm)
    (he : m.allocateNewBlocks p r t tm = .ok (p', m', xs)) : Kept p p' ms₁ m m' ms₂ := by
  unfold allocateNewBlocks at he
  split at he
  · rename_i mode n hk
    by_cases hm : mode = .align
    · subst hm
      exact h.alignAllocate hk ht he
    · rw [if_pos hm] at he
      exact h.baseAllocate he
  · exact h.baseAllocate he

theorem Owned.baseCache (hcaching : p.enableCaching = true)
    (he : m.baseCacheBlocks p req t = .ok (p', m')) : Kept p p' ms₁ m m' ms₂ := by
  unfold baseCacheBlocks at he
  simp only at he
  split_ifs at he with hle
  · cases he
    exact Kept.refl h
  rw [seq_ok_iff] at he
  obtain ⟨q, hq, he⟩ := he
  cases he
  have hm : m ∈ ms₁ ++ m :: ms₂ := by simp
  set r := req.requestId
  have hf := cacheFullBlocks_spec h.hash hcaching (h.lt m hm r) hq (by omega)
  set m1 : Manager α := { m.setBlocks r (m.blocks r) with
    numCachedBlock := m.numCachedBlock.set r (t / (m.blockSize : Int)).toNat }
  have hc : Changed m m1 r (m.blocks r) := changed_of_set rfl rfl rfl
  refine h.update hc (h.align_self.of_changed hc rfl le_rfl) hf.config
    (h.pool.of_eq hf.config hf.refCnt hf.free hf.numFree) hf.hashOK ?_ ?_ ?_
  · intro b _
    rw [hf.refCnt]
  · exact ⟨h.lt m hm r, h.once m hm r, fun b hb _ => .inl hb⟩
  intro b key hk
  rcases hf.hash b with hsame | ⟨hb0, -, i, k, hi, -, hset⟩
  · exact .inl (hsame ▸ hk)
  refine .inr ⟨?_, ?_⟩
  · have hmem : b ∈ m.blocks r := mem_of_mem_take (mem_of_mem_drop (mem_of_getElem? hi))
    have h1 := count_pos_iff.mpr hmem
    have h2 := hc.occ b
    have h3 := count_le_occ m r b
    omega
  · rw [hset] at hk
    cases hk
    rfl

theorem Owned.of_same (hs : m'.spec = m.spec) (hg : m'.groupId = m.groupId)
    (hb : m'.reqToBlocks = m.reqToBlocks) (ha : m'.allocatedBlockReqs = m.allocatedBlockReqs) :
    Kept p p ms₁ m m' ms₂ := by
  have hblocks (a : α) : m'.blocks a = m.blocks a := by
    rw [blocks, hb]
    rfl
  have hocc (b : Nat) : occ m' b = occ m b := by rw [occ, hb, occ]
  have hal : AlignOK m' := by
    intro n hk a har
    rw [hblocks]
    exact h.align_self n (hs ▸ hk) a (ha ▸ har)
  have hmem (a : Manager α) (hm : a ∈ ms₁ ++ m' :: ms₂) :
      ∃ c ∈ ms₁ ++ m :: ms₂, a.groupId = c.groupId ∧ (∀ r, a.blocks r = c.blocks r) ∧
        (∀ b, occ a b = occ c b) ∧ AlignOK a := by
    simp only [mem_append, mem_cons] at hm
    rcases hm with hm | rfl | hm
    · exact ⟨a, by simp [hm], rfl, fun _ => rfl, fun _ => rfl, h.align a (by simp [hm])⟩
    · exact ⟨m, by simp, hg, hblocks, hocc, hal⟩
    · exact ⟨a, by simp [hm], rfl, fun _ => rfl, fun _ => rfl, h.align a (by simp [hm])⟩
  refine ⟨⟨h.pool, h.hash, ?_, ?_, ?_, ?_, ?_, ?_⟩, SameConfig.refl p, hs, hg⟩
  · intro b hb0
    have := h.ref b hb0
    rw [total_split] at this ⊢
    rw [hocc]
    exact this
  · intro a hm r b hb0
    obtain ⟨c, hc, -, hbl, -⟩ := hmem a hm
    rw [hbl]
    exact h.once c hc r b hb0
  · intro a hm r b hbm hb0
    obtain ⟨c, hc, -, hbl, -⟩ := hmem a hm
    rw [hbl] at hbm
    exact h.lt c hc r b hbm hb0
  · intro a1 h1 a2 h2 b hb0 hb1 hb2
    obtain ⟨c1, hc1, hg1, -, ho1, -⟩ := hmem a1 h1
    obtain ⟨c2, hc2, hg2, -, ho2, -⟩ := hmem a2 h2
    rw [hg1, hg2]
    exact h.sole c1 hc1 c2 hc2 b hb0 (ho1 b ▸ hb1) (ho2 b ▸ hb2)
  · intro a hm b key hb0 hab hk
    obtain ⟨c, hc, hgc, -, ho, -⟩ := hmem a hm
    rw [hgc]
    exact h.group c hc b key hb0 (ho b ▸ hab) hk
  · intro a hm
    obtain ⟨c, -, -, -, -, haa⟩ := hmem a hm
    exact haa

theorem Owned.cache (hcaching : p.enableCaching = true)
    (he : m.cacheBlocks p req t = .ok (p', m')) : Kept p p' ms₁ m m' ms₂ := by
  unfold cacheBlocks at he
  split at he
  · cases he
  · simp only [seq_ok_iff] at he
    obtain ⟨⟨q, m1⟩, hbase, -, -, he⟩ := he
    cases he
    have hk := h.baseCache hcaching hbase
    exact hk.trans (hk.owned.of_same rfl rfl rfl rfl)
  · exact h.baseCache hcaching he

/-- Hits that a group may list: each block once, under a key of the group. -/
structure GroupHits (p : BlockPool) (groupId : Nat) (hits : List Nat) : Prop where
  once : ∀ b, b ≠ 0 → hits.count b ≤ 1
  key : ∀ b ∈ hits, b ≠ 0 → ∃ key, p.blockHash b = some key ∧ key.2 = groupId

omit h in
theorem GroupHits.nil (p : BlockPool) (g : Nat) : GroupHits p g [] := ⟨by simp, by simp⟩

omit h in
theorem GroupHits.drop {g : Nat} (h : GroupHits p g hits) (k : Nat) : GroupHits p g (hits.drop k) :=
  ⟨fun b hb => ((drop_sublist k hits).count_le b).trans (h.once b hb),
    fun b hb => h.key b (mem_of_mem_drop hb)⟩

theorem touchComputed_spec {g : Nat} (hh : GroupHits p g hits)
    (he : touchComputed p hits = .ok p') : Touched p p' hits := by
  unfold touchComputed at he
  split_ifs at he with hc hemp
  · have hlt : ∀ b ∈ hits, b = 0 ∨ b < p.numGpuBlocks := by
      intro b hb
      by_cases hb0 : b = 0
      · exact .inl hb0
      · obtain ⟨key, hk, -⟩ := hh.key b hb hb0
        exact .inr (h.hash.cached_lt b key hk).2
    obtain ⟨q, hq, ht⟩ := touch_spec h.pool hlt
    rw [he] at hq
    cases hq
    exact ht
  · cases he
    rw [List.isEmpty_iff] at hemp
    subst hemp
    exact ⟨SameConfig.refl _, by simp, rfl, rfl, rfl, by simp, h.pool⟩

def ExternalFits (m : Manager α) (hits : List Nat) (numLocal numExternal : Int) : Prop :=
  0 < numExternal → 0 ≤ numLocal + numExternal ∧
    (hits.length : Int) ≤ cdiv (numLocal + numExternal) m.blockSize

section
omit [DecidableEq α] h

theorem numSkippedBlocks_le_cdiv (m : Manager α) (ht : 0 ≤ t) :
    (m.numSkippedBlocks t : Int) ≤ cdiv t m.blockSize := by
  have hbs : (0 : Int) < m.blockSize := by exact_mod_cast m.spec.blockSize_pos
  have h1 := m.spec.getNumSkippedTokens_le ht
  have h2 := Int.ediv_le_ediv hbs h1
  have h3 : t / (m.blockSize : Int) ≤ cdiv t m.blockSize :=
    Int.ediv_le_of_le_mul hbs (le_cdiv_mul t m.spec.blockSize_pos)
  have h5 : 0 ≤ cdiv t m.blockSize := cdiv_nonneg ht m.spec.blockSize_pos
  simp only [numSkippedBlocks]
  omega

theorem length_computedList (m : Manager α) (hits : List Nat) (t : Int) :
    (m.computedList hits t).length = max (m.numSkippedBlocks t) hits.length := by
  simp only [computedList, length_append, length_replicate, length_drop]
  omega

theorem windowExternalTokens_le (m : Manager α) (loc ext : Int) :
    m.windowExternalTokens loc ext ≤ ext := by
  unfold windowExternalTokens
  simp only
  split_ifs <;> omega

end

omit h in
theorem addComputed_inv {loc ext : Int} (he : m.addComputedBlocks p r hits loc ext = .ok (p', m')) :
    m.blocks r = [] ∧ ∃ p1, touchComputed p (hits.drop (m.numSkippedBlocks (loc + ext))) = .ok p1 ∧
      ((∃ ret, 0 < m.windowExternalTokens loc ext ∧
          p1.getNewBlocks (cdiv (loc + ext) m.blockSize -
            (m.computedList hits (loc + ext)).length) = .ok (p', ret) ∧
          m' = ((m.withComputed r (m.computedList hits (loc + ext))).setBlocks r
            (m.computedList hits (loc + ext) ++ ret)).noteNewBlocks ret) ∨
        m.windowExternalTokens loc ext ≤ 0 ∧ p' = p1 ∧
          m' = m.withComputed r (m.computedList hits (loc + ext))) := by
  unfold addComputedBlocks at he
  simp only [seq_ok_iff, pyAssert_eq_ok, length_eq_zero_iff] at he
  obtain ⟨-, hempty, p1, htouch, he⟩ := he
  refine ⟨hempty, p1, htouch, ?_⟩
  by_cases hpos : m.windowExternalTokens loc ext > 0
  · rw [if_pos hpos, seq_ok_iff] at he
    obtain ⟨⟨q, ret⟩, hget, he⟩ := he
    cases he
    exact Or.inl ⟨ret, hpos, hget, rfl⟩
  · rw [if_neg hpos] at he
    cases he
    exact Or.inr ⟨by omega, rfl, rfl⟩

theorem Owned.addComputed {loc ext : Int} (hh : GroupHits p m.groupId hits)
    (hfit : ExternalFits m hits loc ext)
    (he : m.addComputedBlocks p r hits loc ext = .ok (p', m')) : Kept p p' ms₁ m m' ms₂ := by
  obtain ⟨hempty, p1, htouch, he⟩ := addComputed_inv he
  have hd := hh.drop (m.numSkippedBlocks (loc + ext))
  have ht := touchComputed_spec h hd htouch
  set l := m.computedList hits (loc + ext) with hl
  have hc : Changed m (m.withComputed r l) r l := changed_of_set rfl rfl rfl
  have hkept : Kept p p1 ms₁ m (m.withComputed r l) ms₂ :=
    h.hit ht hc (h.align_self.of_changed hc rfl (by simp [hempty])) hempty hd.once hd.key
  rcases he with ⟨ret, hpos, hget, rfl⟩ | ⟨-, rfl, rfl⟩
  · have hx : 0 < ext := by
      have := windowExternalTokens_le m loc ext
      omega
    obtain ⟨hnn, hle⟩ := hfit hx
    have hlen : 0 ≤ cdiv (loc + ext) m.blockSize - l.length := by
      have := numSkippedBlocks_le_cdiv m hnn
      rw [length_computedList]
      omega
    have h1 := hkept.owned
    have hnew := getNewBlocks_spec h1.pool h1.hash hlen hget
    have hb : (m.withComputed r l).blocks r = l := by rw [hc.blocks, if_pos rfl]
    have hc2 : Changed (m.withComputed r l)
        (((m.withComputed r l).setBlocks r (l ++ ret)).noteNewBlocks ret) r (l ++ ret) := by
      refine changed_of_set ?_ ?_ ?_ <;> simp [setBlocks]
    exact hkept.trans (h1.extend hnew hc2
      (h1.align_self.of_changed hc2 (by simp [setBlocks]) (by simp [hb])) (fun b _ => by rw [hb]))
  · exact hkept

end methods
end TailBlend.Ownership
