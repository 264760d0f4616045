import Mathlib.Algebra.BigOperators.Group.List.Basic
import Mathlib.Tactic.Linarith

/-! Segments of different lengths stored one after the other. -/
namespace TailBlend.Ragged
variable {α β : Type*}

/-- Where the segment of the entry at place `p` starts; the segment of `a` is `len a` long. -/
def start (len : α → Nat) (l : List α) (p : Nat) : Nat := ((l.take p).map len).sum

variable (len : α → Nat)

@[simp]
theorem start_zero (l : List α) : start len l 0 = 0 := rfl

@[simp]
theorem start_cons_succ (a : α) (l : List α) (p : Nat) :
    start len (a :: l) (p + 1) = len a + start len l p := rfl

variable {l : List α} {p : Nat} {a : α}

theorem start_succ (h : l[p]? = some a) : start len l (p + 1) = start len l p + len a := by
  induction l generalizing p with
  | nil => simp at h
  | cons b l ih =>
    cases p with
    | zero =>
      obtain rfl : b = a := by simpa using h
      simp
    | succ p =>
      rw [start_cons_succ, ih h, start_cons_succ]
      omega

theorem start_mono (l : List α) {q : Nat} (h : p ≤ q) : start len l p ≤ start len l q := by
  induction l generalizing p q with
  | nil => simp [start]
  | cons a l ih =>
    cases p with
    | zero => simp
    | succ p =>
      cases q with
      | zero => omega
      | succ q =>
        exact Nat.add_le_add_left (ih (by omega)) _

theorem lt_length_of_getElem? (h : l[p]? = some a) : p < l.length :=
  (List.getElem?_eq_some_iff.mp h).1

theorem start_add_inj {q j k : Nat} {b : α} (hp : l[p]? = some a)
    (hq : l[q]? = some b) (hj : j < len a) (hk : k < len b)
    (h : start len l p + j = start len l q + k) : p = q ∧ j = k := by
  have hap := start_succ len hp
  have hbq := start_succ len hq
  have hpq : p = q := by
    by_contra hne
    rcases Nat.lt_or_gt_of_ne hne with hlt | hlt
    · have := start_mono (p := p + 1) len l hlt
      omega
    · have := start_mono (p := q + 1) len l hlt
      omega
  subst hpq
  exact ⟨rfl, by omega⟩

/-- The storage of the segments `f a`, read at a place of one of them. -/
theorem getElem?_flatMap (f : α → List β) {j : Nat} (h : l[p]? = some a) (hj : j < (f a).length) :
    (l.flatMap f)[start (fun a => (f a).length) l p + j]? = (f a)[j]? := by
  induction l generalizing p with
  | nil => simp at h
  | cons b l ih =>
    cases p with
    | zero =>
      obtain rfl : b = a := by simpa using h
      rw [start_zero, Nat.zero_add, List.flatMap_cons, List.getElem?_append_left hj]
    | succ p =>
      rw [start_cons_succ, List.flatMap_cons, List.getElem?_append_right (by omega)]
      have hsub : (f b).length + start (fun a => (f a).length) l p + j - (f b).length =
          start (fun a => (f a).length) l p + j := by omega
      rw [hsub]
      exact ih h

end TailBlend.Ragged
