import TailBlend.OwnershipRuns

/-! Blocks that a request has not cached yet carry no hash and belong to it alone. -/
namespace TailBlend.Ownership
open BlockPool Manager List
variable {α : Type} [DecidableEq α]

/-- The number of blocks of a request that were hits or have been cached. -/
def numCached (m : Manager α) (r : α) : Nat := m.numCachedBlock.getD r 0

/-- From index `numCached` on, the blocks of a request are its own. -/
def Private (p : BlockPool) (ms : List (Manager α)) : Prop :=
  ∀ m ∈ ms, ∀ (r : α) (i b : Nat), numCached m r ≤ i → (m.blocks r)[i]? = some b → b ≠ 0 →
    p.blockHash b = none ∧ p.refCnt b = 1

theorem one_lt_count_of_getElem? {l : List Nat} {i j b : Nat} (hb : b ≠ 0) (hij : i ≠ j)
    (hi : l[i]? = some b) (hj : l[j]? = some b) : 1 < l.count b := by
  obtain ⟨hlt, hget⟩ := List.getElem?_eq_some_iff.mp hi
  have hset := count_set_null l hlt hb
  have hmem : b ∈ l.set i 0 := mem_of_getElem? ((getElem?_set_ne hij).trans hj)
  have hpos := count_pos_iff.mpr hmem
  rw [if_pos (by simp [hlt, hget])] at hset
  omega

section moves
variable {p p' : BlockPool} {ms₁ ms₂ : List (Manager α)} {m m' : Manager α} {r : α}

theorem Owned.not_mem_of_one (h : Owned p (ms₁ ++ m :: ms₂)) {b : Nat} (hb : b ≠ 0)
    (h1 : p.refCnt b = 1) {a : Manager α} (ha : a ∈ ms₁ ++ ms₂) {r' : α}
    (hm : b ∈ a.blocks r') : b ∉ m.blocks r := by
  intro hr
  have href := h.ref b hb
  have ho := (count_pos_iff.mpr hr).trans_le (count_le_occ m r b)
  have ha' := (count_pos_iff.mpr hm).trans_le (count_le_occ a r' b)
  rw [total_split] at href
  rcases mem_append.mp ha with ha | ha <;>
  · have := occ_le_total ha b
    omega

variable (h : Private p (ms₁ ++ m :: ms₂)) (ho : Owned p (ms₁ ++ m :: ms₂))
include h ho

theorem Private.update {l : List Nat} (hc : Changed m m' r l)
    (hcached : ∀ a, a ≠ r → numCached m' a = numCached m a)
    (hkeep : ∀ b, b ≠ 0 → p.blockHash b = none → p.refCnt b = 1 → b ∉ m.blocks r →
      p'.blockHash b = none ∧ p'.refCnt b = 1)
    (hself : ∀ i b : Nat, numCached m' r ≤ i → l[i]? = some b → b ≠ 0 →
      p'.blockHash b = none ∧ p'.refCnt b = 1) : Private p' (ms₁ ++ m' :: ms₂) := by
  intro a ha r' i b hi hget hb
  have hcases : a = m' ∨ a ∈ ms₁ ++ ms₂ := by
    simp only [mem_append, mem_cons] at ha ⊢
    tauto
  rcases hcases with rfl | hrest
  · rw [hc.blocks] at hget
    by_cases hr : r' = r
    · subst hr
      rw [if_pos rfl] at hget
      exact hself i b hi hget hb
    rw [if_neg hr] at hget
    rw [hcached r' hr] at hi
    obtain ⟨hn, h1⟩ := h m (by simp) r' i b hi hget hb
    refine hkeep b hb hn h1 (fun hmem => ?_)
    have hsum : (m.blocks r).count b + (m.blocks r').count b ≤ occ m b :=
      Dict.add_le_weight (fun l => l.count b) [] (by simp) m.reqToBlocks hr
    have hx := count_pos_iff.mpr hmem
    have hy := count_pos_iff.mpr (mem_of_getElem? hget)
    have href := ho.ref b hb
    rw [total_split] at href
    omega
  · have hold : a ∈ ms₁ ++ m :: ms₂ := by
      simp only [mem_append] at hrest ⊢
      tauto
    obtain ⟨hn, h1⟩ := h a hold r' i b hi hget hb
    exact hkeep b hb hn h1 (ho.not_mem_of_one hb h1 hrest (mem_of_getElem? hget))

theorem Private.release {l removed : List Nat} (hc : Changed m m' r l)
    (hcached : ∀ a, a ≠ r → numCached m' a = numCached m a)
    (hlow : ∀ i b : Nat, l[i]? = some b → b ≠ 0 → numCached m' r ≤ i →
      numCached m r ≤ i ∧ (m.blocks r)[i]? = some b)
    (hcount : ∀ b, b ≠ 0 → l.count b + removed.count b = (m.blocks r).count b)
    (hf : Freed p p' removed) : Private p' (ms₁ ++ m' :: ms₂) := by
  refine h.update ho hc hcached ?_ ?_
  · intro b hb hn h1 hnot
    have := hcount b hb
    rw [count_eq_zero.mpr hnot] at this
    rw [hf.hash, hf.refCnt]
    exact ⟨hn, by omega⟩
  intro i b hi hget hb
  obtain ⟨hi', hget'⟩ := hlow i b hget hb hi
  obtain ⟨hn, h1⟩ := h m (by simp) r i b hi' hget' hb
  have h2 := hcount b hb
  have h3 := ho.once m (by simp) r b hb
  have h4 := count_pos_iff.mpr (mem_of_getElem? hget)
  rw [hf.hash, hf.refCnt]
  exact ⟨hn, by omega⟩

theorem Private.extend {l ret : List Nat} {n : Int} (hc : Changed m m' r (l ++ ret))
    (hcached : ∀ a, numCached m' a = numCached m a)
    (hl : ∀ i b : Nat, l[i]? = some b → b ≠ 0 → numCached m r ≤ i →
      ∃ j, numCached m r ≤ j ∧ (m.blocks r)[j]? = some b) (hnew : NewBlocks p p' n ret) :
    Private p' (ms₁ ++ m' :: ms₂) := by
  have hkeep (b : Nat) (hn : p.blockHash b = none) (h1 : p.refCnt b = 1) :
      p'.blockHash b = none ∧ p'.refCnt b = 1 := by
    have hnot : b ∉ ret := fun hb => by
      have := (hnew.fresh b hb).2.2
      omega
    rw [hnew.hash, if_neg hnot, hnew.refCnt, count_eq_zero.mpr hnot, h1]
    exact ⟨hn, by simp⟩
  refine h.update ho hc (fun a _ => hcached a) (fun b _ hn h1 _ => hkeep b hn h1) ?_
  intro i b hi hget hb
  rw [hcached] at hi
  by_cases hlt : i < l.length
  · rw [getElem?_append_left hlt] at hget
    obtain ⟨j, hj, hget'⟩ := hl i b hget hb hi
    obtain ⟨hn, h1⟩ := h m (by simp) r j b hj hget' hb
    exact hkeep b hn h1
  rw [getElem?_append_right (by omega)] at hget
  have hmem := mem_of_getElem? hget
  rw [hnew.hash, if_pos hmem, hnew.refCnt, (hnew.fresh b hmem).2.2,
    count_eq_one_of_mem hnew.nodup hmem]
  exact ⟨rfl, rfl⟩

theorem Private.hit {l hits : List Nat} {g : Nat} (hc : Changed m m' r l)
    (hcached : ∀ a, a ≠ r → numCached m' a = numCached m a) (hall : l.length ≤ numCached m' r)
    (hh : GroupHits p g hits) (ht : Touched p p' hits) : Private p' (ms₁ ++ m' :: ms₂) := by
  refine h.update ho hc hcached ?_ ?_
  · intro b hb hn h1 _
    have hnot : b ∉ hits := fun hm => by
      obtain ⟨key, hk, -⟩ := hh.key b hm hb
      rw [hn] at hk
      cases hk
    rw [ht.hash, ht.refCnt, count_eq_zero.mpr hnot, h1]
    exact ⟨hn, by simp⟩
  · intro i b hi hget
    have := (List.getElem?_eq_some_iff.mp hget).1
    omega

theorem Private.fill {numFull : Nat} {hashes : List (List BlockHash)}
    (hc : Changed m m' r (m.blocks r)) (hcached : ∀ a, a ≠ r → numCached m' a = numCached m a)
    (hr : numCached m' r = numFull) (hle : numCached m r ≤ numFull)
    (hf : Filled p p' m.groupId (((m.blocks r).take numFull).drop (numCached m r)) hashes) :
    Private p' (ms₁ ++ m' :: ms₂) := by
  refine h.update ho hc hcached ?_ ?_
  · intro b hb hn h1 hnot
    rw [hf.refCnt]
    refine ⟨?_, h1⟩
    rcases hf.hash b with hsame | ⟨-, -, i, k, hi, -, -⟩
    · rw [hsame, hn]
    · exact absurd (mem_of_mem_take (mem_of_mem_drop (mem_of_getElem? hi))) hnot
  intro i b hi hget hb
  obtain ⟨hn, h1⟩ := h m (by simp) r i b (by omega) hget hb
  rw [hf.refCnt]
  refine ⟨?_, h1⟩
  rcases hf.hash b with hsame | ⟨-, -, j, k, hj, -, -⟩
  · rw [hsame, hn]
  -- the block would stand at two places of the list
  rw [getElem?_drop, getElem?_take] at hj
  split_ifs at hj with hlt
  have honce := ho.once m (by simp) r b hb
  have hne : numCached m r + j ≠ i := by omega
  exact absurd honce (not_le.mpr (one_lt_count_of_getElem? hb hne hj hget))

end moves
end TailBlend.Ownership
