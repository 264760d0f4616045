import Mathlib.Data.List.Nodup

/-! Elements that are held exactly once while they live, split over two lists. -/
namespace TailBlend
open List
variable {α : Type*} [DecidableEq α]

/-- Every live element is held once, in `active` exactly when `acts` says so and else in
`rest`; nothing else is held. -/
structure Tally (live acts : α → Prop) (active rest : List α) : Prop where
  once : ∀ a, live a → active.count a + rest.count a = 1
  never : ∀ a, ¬live a → active.count a + rest.count a = 0
  acts : ∀ a, a ∈ active ↔ acts a

namespace Tally
variable {live acts : α → Prop} {active rest : List α} (h : Tally live acts active rest)
include h

theorem count_le (a : α) : active.count a + rest.count a ≤ 1 := by
  by_cases ha : live a
  · exact Nat.le_of_eq (h.once a ha)
  · have := h.never a ha
    omega

theorem nodup_active : active.Nodup :=
  nodup_iff_count_le_one.mpr (fun a => by have := h.count_le a; omega)

variable {a : α}

theorem live_of_mem (ha : a ∈ active ∨ a ∈ rest) : live a := by
  by_contra hdead
  have hzero := h.never a hdead
  obtain ha | ha := ha
  · have := count_pos_iff.mpr ha
    omega
  · have := count_pos_iff.mpr ha
    omega

theorem not_mem_rest (ha : a ∈ active) : a ∉ rest := by
  intro hrest
  have h1 := count_pos_iff.mpr ha
  have h2 := count_pos_iff.mpr hrest
  have := h.count_le a
  omega

theorem congr {live' acts' : α → Prop} {active' rest' : List α} (hlive : ∀ a, live' a ↔ live a)
    (hacts : ∀ a, acts' a ↔ acts a) (hactive : active'.Perm active) (hrest : rest'.Perm rest) :
    Tally live' acts' active' rest' where
  once a ha := by
    rw [hactive.count_eq, hrest.count_eq]
    exact h.once a ((hlive a).mp ha)
  never a ha := by
    rw [hactive.count_eq, hrest.count_eq]
    exact h.never a (fun hl => ha ((hlive a).mpr hl))
  acts a := by
    rw [hactive.mem_iff, hacts a]
    exact h.acts a

theorem suspend (ha : a ∈ active) :
    Tally live (fun x => acts x ∧ x ≠ a) (active.erase a) (a :: rest) := by
  have hcount (x : α) : (active.erase a).count x + (a :: rest).count x =
      active.count x + rest.count x := by
    by_cases hx : x = a
    · subst hx
      have := count_pos_iff.mpr ha
      rw [count_erase_self, count_cons_self]
      omega
    · rw [count_erase_of_ne hx, count_cons_of_ne (Ne.symm hx)]
  refine ⟨fun x hx => ?_, fun x hx => ?_, fun x => ?_⟩
  · rw [hcount]
    exact h.once x hx
  · rw [hcount]
    exact h.never x hx
  · rw [h.nodup_active.mem_erase_iff, h.acts, and_comm]

theorem resume (ha : a ∈ rest) :
    Tally live (fun x => acts x ∨ x = a) (active ++ [a]) (rest.erase a) := by
  have hcount (x : α) : (active ++ [a]).count x + (rest.erase a).count x =
      active.count x + rest.count x := by
    rw [count_append]
    by_cases hx : x = a
    · subst hx
      have := count_pos_iff.mpr ha
      rw [count_erase_self, count_singleton_self]
      omega
    · rw [count_erase_of_ne hx, count_singleton, if_neg (by simpa using Ne.symm hx)]
      omega
  refine ⟨fun x hx => ?_, fun x hx => ?_, fun x => ?_⟩
  · rw [hcount]
    exact h.once x hx
  · rw [hcount]
    exact h.never x hx
  · rw [mem_append, mem_singleton, h.acts]

theorem add (ha : ¬live a) : Tally (fun x => live x ∨ x = a) acts active (a :: rest) := by
  refine ⟨fun x hx => ?_, fun x hx => ?_, h.acts⟩
  · by_cases hxa : x = a
    · subst hxa
      have := h.never x ha
      rw [count_cons_self]
      omega
    · rw [count_cons_of_ne (Ne.symm hxa)]
      exact h.once x (hx.resolve_right hxa)
  · push Not at hx
    rw [count_cons_of_ne (Ne.symm hx.2)]
    exact h.never x hx.1

theorem retire (gone : List α) : Tally (fun x => live x ∧ x ∉ gone) (fun x => acts x ∧ x ∉ gone)
      (active.filter (fun x => x ∉ gone)) (rest.filter (fun x => x ∉ gone)) := by
  refine ⟨fun x hx => ?_, fun x hx => ?_, fun x => ?_⟩
  · rw [count_filter (by simpa using hx.2), count_filter (by simpa using hx.2)]
    exact h.once x hx.1
  · by_cases hg : x ∈ gone
    · have hzero (l : List α) : (l.filter (fun x => x ∉ gone)).count x = 0 :=
        count_eq_zero.mpr (by simp [hg])
      rw [hzero, hzero]
    · rw [count_filter (by simpa using hg), count_filter (by simpa using hg)]
      exact h.never x (fun hl => hx ⟨hl, hg⟩)
  · simp [h.acts]

end Tally
end TailBlend
