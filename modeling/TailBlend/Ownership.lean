import TailBlend.BlockPoolSpec
import TailBlend.KVCacheManager

/-! Who owns a block: the reference counts of the pool against the block lists of all
managers, and the effect of every manager method on them. -/
namespace TailBlend.Ownership
open BlockPool List
variable {α : Type} [DecidableEq α]

def occ (m : Manager α) (b : Nat) : Nat := m.reqToBlocks.weight (fun l => l.count b)

def total (ms : List (Manager α)) (b : Nat) : Nat := (ms.map (fun m => occ m b)).sum

theorem count_le_occ (m : Manager α) (r : α) (b : Nat) : (m.blocks r).count b ≤ occ m b :=
  Dict.le_weight (fun l => l.count b) [] (by simp) m.reqToBlocks r

omit [DecidableEq α] in
theorem total_split (ms₁ ms₂ : List (Manager α)) (m : Manager α) (b : Nat) :
    total (ms₁ ++ m :: ms₂) b = total ms₁ b + occ m b + total ms₂ b := by
  simp [total, Nat.add_assoc]

variable {m m' : Manager α} {r : α} {p : BlockPool} {ms₁ ms₂ : List (Manager α)}

omit [DecidableEq α] in
theorem occ_le_total {ms : List (Manager α)} (hm : m ∈ ms) (b : Nat) : occ m b ≤ total ms b :=
  le_sum_of_mem (mem_map_of_mem (f := fun m => occ m b) hm)

/-- Align mode keeps the running-state block and the speculative ones of a request that
has been allocated blocks. -/
def AlignOK (m : Manager α) : Prop :=
  ∀ n, m.spec.kind = .mamba .align n → ∀ r ∈ m.allocatedBlockReqs, 1 + n ≤ (m.blocks r).length

/-- A non-null block is referenced once per occurrence, is listed at most once per request
and only by the managers of one group, the one of its hash. -/
structure Owned (p : BlockPool) (ms : List (Manager α)) : Prop where
  pool : PoolOK p
  hash : HashOK p
  ref : ∀ b, b ≠ 0 → p.refCnt b = total ms b
  once : ∀ m ∈ ms, ∀ r b, b ≠ 0 → (m.blocks r).count b ≤ 1
  lt : ∀ m ∈ ms, ∀ r, ∀ b ∈ m.blocks r, b ≠ 0 → b < p.numGpuBlocks
  sole : ∀ m₁ ∈ ms, ∀ m₂ ∈ ms, ∀ b, b ≠ 0 → 0 < occ m₁ b → 0 < occ m₂ b →
    m₁.groupId = m₂.groupId
  group : ∀ m ∈ ms, ∀ b key, b ≠ 0 → 0 < occ m b → p.blockHash b = some key →
    key.2 = m.groupId
  align : ∀ m ∈ ms, AlignOK m

structure Changed (m m' : Manager α) (r : α) (l : List Nat) : Prop where
  spec : m'.spec = m.spec
  groupId : m'.groupId = m.groupId
  blocks : ∀ a, m'.blocks a = if a = r then l else m.blocks a
  occ : ∀ b, occ m' b + (m.blocks r).count b = occ m b + l.count b

theorem changed_of_set {l : List Nat} (hs : m'.spec = m.spec) (hg : m'.groupId = m.groupId)
    (hb : m'.reqToBlocks = m.reqToBlocks.set r l) : Changed m m' r l := by
  refine ⟨hs, hg, ?_, ?_⟩
  · intro a
    rw [Manager.blocks, hb, Dict.getD_set]
    rfl
  · intro b
    rw [occ, hb]
    exact Dict.weight_set (fun l => l.count b) [] (by simp) m.reqToBlocks r l

theorem changed_of_erase (hs : m'.spec = m.spec) (hg : m'.groupId = m.groupId)
    (hb : m'.reqToBlocks = m.reqToBlocks.erase r) : Changed m m' r [] := by
  refine ⟨hs, hg, ?_, ?_⟩
  · intro a
    rw [Manager.blocks, hb, Dict.getD_erase]
    rfl
  · intro b
    rw [occ, hb]
    exact Dict.weight_erase (fun l => l.count b) [] (by simp) m.reqToBlocks r

/-- What a method may put in a list: blocks that were there, blocks fresh from the pool
and prefix-cache hits of the group. -/
structure Legal (p p' : BlockPool) (m : Manager α) (r : α) (l : List Nat) : Prop where
  lt : ∀ b ∈ l, b ≠ 0 → b < p.numGpuBlocks
  once : ∀ b, b ≠ 0 → l.count b ≤ 1
  source : ∀ b ∈ l, b ≠ 0 → b ∈ m.blocks r ∨ (p.refCnt b = 0 ∧ p'.blockHash b = none) ∨
    ∃ key, p.blockHash b = some key ∧ key.2 = m.groupId

structure Kept (p p' : BlockPool) (ms₁ : List (Manager α)) (m m' : Manager α)
    (ms₂ : List (Manager α)) : Prop where
  owned : Owned p' (ms₁ ++ m' :: ms₂)
  config : SameConfig p p'
  spec : m'.spec = m.spec
  groupId : m'.groupId = m.groupId

theorem Kept.refl (h : Owned p (ms₁ ++ m :: ms₂)) : Kept p p ms₁ m m ms₂ :=
  ⟨h, SameConfig.refl p, rfl, rfl⟩

theorem Kept.trans {q r : BlockPool} {m1 m2 : Manager α} (h : Kept p q ms₁ m m1 ms₂)
    (h' : Kept q r ms₁ m1 m2 ms₂) : Kept p r ms₁ m m2 ms₂ :=
  ⟨h'.owned, h.config.trans h'.config, h'.spec.trans h.spec, h'.groupId.trans h.groupId⟩

theorem Owned.update {p' : BlockPool} {l : List Nat} (h : Owned p (ms₁ ++ m :: ms₂))
    (hc : Changed m m' r l) (ha : AlignOK m') (hcfg : SameConfig p p') (hp : PoolOK p')
    (hh : HashOK p')
    (href : ∀ b, b ≠ 0 → p'.refCnt b + (m.blocks r).count b = p.refCnt b + l.count b)
    (hl : Legal p p' m r l) (hhash : ∀ b key, p'.blockHash b = some key → p.blockHash b = some key ∨
      0 < occ m' b ∧ key.2 = m.groupId) : Kept p p' ms₁ m m' ms₂ := by
  have hmem (a : Manager α) (ha : a ∈ ms₁ ++ m' :: ms₂) :
      a = m' ∨ a ∈ ms₁ ++ m :: ms₂ := by
    simp only [mem_append, mem_cons] at ha ⊢
    tauto
  have hm : m ∈ ms₁ ++ m :: ms₂ := by simp
  -- a block the changed manager now lists and did not list before
  have hnew (b : Nat) (hb : b ≠ 0) (h' : 0 < occ m' b) (h0 : occ m b = 0) :
      (p.refCnt b = 0 ∧ p'.blockHash b = none) ∨
        ∃ key, p.blockHash b = some key ∧ key.2 = m.groupId := by
    have hocc := hc.occ b
    have hmb := count_le_occ m r b
    have hbl : b ∈ l := count_pos_iff.mp (by omega)
    have hnb : b ∉ m.blocks r := count_eq_zero.mp (by omega)
    exact (hl.source b hbl hb).resolve_left hnb
  have hsole (a : Manager α) (ha : a ∈ ms₁ ++ m :: ms₂) (b : Nat) (hb : b ≠ 0)
      (hab : 0 < occ a b) (h' : 0 < occ m' b) : a.groupId = m.groupId := by
    by_cases h0 : occ m b = 0
    · rcases hnew b hb h' h0 with ⟨hz, -⟩ | ⟨key, hk, hg⟩
      · have h1 := h.ref b hb
        have h2 := occ_le_total ha b
        omega
      · rw [← hg, h.group a ha b key hb hab hk]
    · exact h.sole a ha m hm b hb hab (by omega)
  refine ⟨⟨hp, hh, ?_, ?_, ?_, ?_, ?_, ?_⟩, hcfg, hc.spec, hc.groupId⟩
  · intro b hb
    have h1 := h.ref b hb
    have h2 := hc.occ b
    have h3 := href b hb
    rw [total_split] at h1 ⊢
    omega
  · intro a ha r' b hb
    rcases hmem a ha with rfl | ha
    · rw [hc.blocks]
      split
      · exact hl.once b hb
      · exact h.once m hm r' b hb
    · exact h.once a ha r' b hb
  · intro a ha r' b hbm hb
    rw [hcfg.num]
    rcases hmem a ha with rfl | ha
    · rw [hc.blocks] at hbm
      split at hbm
      · exact hl.lt b hbm hb
      · exact h.lt m hm r' b hbm hb
    · exact h.lt a ha r' b hbm hb
  · intro a1 h₁ a2 h₂ b hb hb1 hb2
    rcases hmem a1 h₁ with rfl | k1 <;> rcases hmem a2 h₂ with rfl | k2
    · rfl
    · rw [hc.groupId, hsole a2 k2 b hb hb2 hb1]
    · rw [hc.groupId, hsole a1 k1 b hb hb1 hb2]
    · exact h.sole a1 k1 a2 k2 b hb hb1 hb2
  · intro a ha b key hb hab hk
    rcases hhash b key hk with hold | ⟨hm', hg⟩
    · rcases hmem a ha with rfl | ha
      · rw [hc.groupId]
        by_cases h0 : occ m b = 0
        · rcases hnew b hb hab h0 with ⟨-, hz⟩ | ⟨key', hk', hg⟩
          · rw [hz] at hk
            cases hk
          · rw [hold] at hk'
            cases hk'
            exact hg
        · exact h.group m hm b key hb (by omega) hold
      · exact h.group a ha b key hb hab hold
    · rcases hmem a ha with rfl | ha
      · rw [hc.groupId, hg]
      · rw [hg, hsole a ha b hb hab hm']
  · intro a ha'
    rcases hmem a ha' with rfl | ha'
    · exact ha
    · exact h.align a ha'

section moves
variable {p p' : BlockPool} {ms₁ ms₂ : List (Manager α)} {m m' : Manager α} {r : α}

theorem Owned.count_le_ref (h : Owned p (ms₁ ++ m :: ms₂)) {b : Nat} (hb : b ≠ 0) :
    ((m.blocks r).count b : Int) ≤ p.refCnt b := by
  have h1 := h.ref b hb
  have h2 := count_le_occ m r b
  rw [total_split] at h1
  omega

variable {l : List Nat}

section
variable (h : Owned p (ms₁ ++ m :: ms₂))
include h

theorem Owned.freed {removed : List Nat}
    (hcount : ∀ b, b ≠ 0 → l.count b + removed.count b = (m.blocks r).count b) :
    Freed p (p.freeBlocks removed) removed := by
  have hm : m ∈ ms₁ ++ m :: ms₂ := by simp
  have hmem (b : Nat) (hb : b ≠ 0) (hx : b ∈ removed) : b ∈ m.blocks r := by
    have h1 := hcount b hb
    have h2 := count_pos_iff.mpr hx
    exact count_pos_iff.mp (by omega)
  refine freeBlocks_spec h.pool ?_ ?_ ?_
  · exact fun b hbm hb => h.lt m hm r b (hmem b hb hbm) hb
  · intro b hb
    have := hcount b hb
    have := h.once m hm r b hb
    omega
  · intro b hbm hb
    have h1 := h.count_le_ref (r := r) hb
    have h2 := count_pos_iff.mpr (hmem b hb hbm)
    omega

theorem Owned.release (removed : List Nat) (hc : Changed m m' r l) (ha : AlignOK m')
    (hcount : ∀ b, b ≠ 0 → l.count b + removed.count b = (m.blocks r).count b) :
    Kept p (p.freeBlocks removed) ms₁ m m' ms₂ := by
  have hm : m ∈ ms₁ ++ m :: ms₂ := by simp
  have hmem (b : Nat) (hb : b ≠ 0) (hx : b ∈ l) : b ∈ m.blocks r := by
    have h1 := hcount b hb
    have h2 := count_pos_iff.mpr hx
    exact count_pos_iff.mp (by omega)
  have hfreed := h.freed hcount
  refine h.update hc ha hfreed.config hfreed.poolOK
    (h.hash.of_eq hfreed.config hfreed.hash hfreed.cached) ?_ ?_ ?_
  · intro b hb
    have := hcount b hb
    rw [hfreed.refCnt]
    omega
  · refine ⟨?_, ?_, ?_⟩
    · exact fun b hbm hb => h.lt m hm r b (hmem b hb hbm) hb
    · intro b hb
      have := hcount b hb
      have := h.once m hm r b hb
      omega
    · exact fun b hbm hb => .inl (hmem b hb hbm)
  · intro b key hk
    exact .inl hk

theorem Owned.extend {ret : List Nat} {n : Int} (hnew : NewBlocks p p' n ret)
    (hc : Changed m m' r (l ++ ret)) (ha : AlignOK m')
    (hcount : ∀ b, b ≠ 0 → l.count b = (m.blocks r).count b) : Kept p p' ms₁ m m' ms₂ := by
  have hm : m ∈ ms₁ ++ m :: ms₂ := by simp
  have hold (b : Nat) (hb : b ≠ 0) (hx : b ∈ l) : b ∈ m.blocks r := by
    have h1 := count_pos_iff.mpr hx
    rw [hcount b hb] at h1
    exact count_pos_iff.mp h1
  refine h.update hc ha hnew.config hnew.poolOK hnew.hashOK ?_ ?_ ?_
  · intro b hb
    rw [hnew.refCnt, count_append, hcount b hb]
    push_cast
    ring
  · refine ⟨?_, ?_, ?_⟩
    · intro b hbm hb
      rcases mem_append.mp hbm with hx | hx
      · exact h.lt m hm r b (hold b hb hx) hb
      · exact (hnew.fresh b hx).2.1
    · intro b hb
      rw [count_append, hcount b hb]
      by_cases hx : b ∈ ret
      · have h1 := count_eq_one_of_mem hnew.nodup hx
        have h2 := h.count_le_ref (r := r) hb
        have h3 := (hnew.fresh b hx).2.2
        omega
      · rw [count_eq_zero.mpr hx]
        exact h.once m hm r b hb
    · intro b hbm hb
      rcases mem_append.mp hbm with hx | hx
      · exact .inl (hold b hb hx)
      · refine .inr (.inl ⟨(hnew.fresh b hx).2.2, ?_⟩)
        rw [hnew.hash, if_pos hx]
  · intro b key hk
    rw [hnew.hash] at hk
    split at hk
    · cases hk
    · exact .inl hk

theorem Owned.hit {hits : List Nat} {k : Nat} (ht : Touched p p' hits)
    (hc : Changed m m' r (replicate k 0 ++ hits)) (ha : AlignOK m') (hempty : m.blocks r = [])
    (honce : ∀ b, b ≠ 0 → hits.count b ≤ 1)
    (hkey : ∀ b ∈ hits, b ≠ 0 → ∃ key, p.blockHash b = some key ∧ key.2 = m.groupId) :
    Kept p p' ms₁ m m' ms₂ := by
  have hcount (b : Nat) (hb : b ≠ 0) : (replicate k 0 ++ hits).count b = hits.count b := by
    simp [count_replicate, Ne.symm hb]
  refine h.update hc ha ht.config ht.poolOK (h.hash.of_eq ht.config ht.hash ht.cached) ?_ ?_ ?_
  · intro b hb
    rw [ht.refCnt, hcount b hb, hempty]
    simp
  · refine ⟨?_, ?_, ?_⟩
    · intro b hbm hb
      have hx : b ∈ hits := by simpa [hb] using hbm
      obtain ⟨key, hk, -⟩ := hkey b hx hb
      exact (h.hash.cached_lt b key hk).2
    · intro b hb
      rw [hcount b hb]
      exact honce b hb
    · intro b hbm hb
      have hx : b ∈ hits := by simpa [hb] using hbm
      exact .inr (.inr (hkey b hx hb))
  · intro b key hk
    rw [ht.hash] at hk
    exact .inl hk

end

end moves

end TailBlend.Ownership
