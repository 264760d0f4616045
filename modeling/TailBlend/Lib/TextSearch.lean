import Mathlib.Data.List.Infix
import Mathlib.Data.List.Range

/-! Search of a substring in a list, and what is found when the text grows at its end. -/
namespace TailBlend.TextSearch
open List
variable {γ : Type*} [DecidableEq γ]

/-- `sub` stands at place `i` of `text`. -/
def OccursAt (text sub : List γ) (i : Nat) : Prop := sub <+: text.drop i

instance (text sub : List γ) (i : Nat) : Decidable (OccursAt text sub i) :=
  inferInstanceAs (Decidable (sub <+: text.drop i))

/-- The first place from `start` on, `text.find(sub, start)`. -/
def findFrom (text sub : List γ) (start : Nat) : Option Nat :=
  (List.range' start (text.length + 1 - start)).find? (fun i => decide (OccursAt text sub i))

/-- `sub` stands somewhere with its end behind `lo` and not behind `hi`. -/
def EndsIn (text sub : List γ) (lo hi : Nat) : Prop :=
  ∃ i, OccursAt text sub i ∧ lo < i + sub.length ∧ i + sub.length ≤ hi

variable {text sub : List γ} {i lo : Nat}

section
omit [DecidableEq γ]

theorem OccursAt.end_le (h : OccursAt text sub i) (hne : sub ≠ []) :
    i + sub.length ≤ text.length := by
  have hlen := h.length_le
  rw [length_drop] at hlen
  have := length_pos_iff.mpr hne
  omega

theorem occursAt_append {text' : List γ} (hp : text <+: text') (hi : i + sub.length ≤ text.length) :
    OccursAt text' sub i ↔ OccursAt text sub i := by
  obtain ⟨rest, rfl⟩ := hp
  unfold OccursAt
  rw [drop_append_of_le_length (by omega)]
  constructor
  · intro h
    exact prefix_of_prefix_length_le h (prefix_append _ _)
      (by rw [length_drop]; omega)
  · intro h
    exact h.trans (prefix_append _ _)

/-- One more symbol adds at most the occurrence that it completes. -/
theorem occursAt_concat {x : γ} (hne : sub ≠ []) :
    OccursAt (text ++ [x]) sub i ↔
      OccursAt text sub i ∨ sub <:+ text ++ [x] ∧ i + sub.length = text.length + 1 := by
  constructor
  · intro h
    have hle := h.end_le hne
    rw [length_append, length_singleton] at hle
    by_cases hi : i + sub.length ≤ text.length
    · exact .inl ((occursAt_append (prefix_append _ _) hi).mp h)
    · have hend : i + sub.length = text.length + 1 := by omega
      have heq : sub = (text ++ [x]).drop i := h.eq_of_length (by simp; omega)
      exact .inr ⟨heq ▸ drop_suffix _ _, hend⟩
  rintro (h | ⟨h, hend⟩)
  · exact (occursAt_append (prefix_append _ _) (h.end_le hne)).mpr h
  obtain ⟨front, hfront⟩ := h
  have hi : i = front.length := by
    have := congrArg length hfront
    simp only [length_append, length_singleton] at this
    omega
  rw [OccursAt, ← hfront, hi, drop_left]

theorem endsIn_append {text' : List γ} (hp : text <+: text') {hi : Nat} (hhi : hi ≤ text.length) :
    EndsIn text' sub lo hi ↔ EndsIn text sub lo hi := by
  refine exists_congr fun i => ⟨fun h => ?_, fun h => ?_⟩
  · exact ⟨(occursAt_append hp (by omega)).mp h.1, h.2⟩
  · exact ⟨(occursAt_append hp (by omega)).mpr h.1, h.2⟩

theorem endsIn_split {mid hi : Nat} (h1 : lo ≤ mid) (h2 : mid ≤ hi) :
    EndsIn text sub lo hi ↔ EndsIn text sub lo mid ∨ EndsIn text sub mid hi := by
  constructor
  · rintro ⟨i, hocc, hlo, hhi⟩
    by_cases hm : i + sub.length ≤ mid
    · exact .inl ⟨i, hocc, hlo, hm⟩
    · exact .inr ⟨i, hocc, by omega, hhi⟩
  · rintro (⟨i, hocc, hlo, hhi⟩ | ⟨i, hocc, hlo, hhi⟩)
    · exact ⟨i, hocc, hlo, by omega⟩
    · exact ⟨i, hocc, by omega, hhi⟩

end

theorem findFrom_eq_some (hne : sub ≠ []) {start : Nat} :
    findFrom text sub start = some i ↔
      OccursAt text sub i ∧ start ≤ i ∧ ∀ j, start ≤ j → j < i → ¬ OccursAt text sub j := by
  unfold findFrom
  rw [find?_range'_eq_some]
  simp only [decide_eq_true_eq, mem_range'_1, Bool.not_eq_true', decide_eq_false_iff_not]
  refine and_congr_right fun hocc => ?_
  have := hocc.end_le hne
  constructor
  · exact fun h => ⟨h.1.1, h.2⟩
  · exact fun h => ⟨⟨h.1, by omega⟩, h.2⟩

/-- The search for an end behind `lo`: it starts where such an occurrence can start. -/
theorem findFrom_window (hne : sub ≠ []) :
    findFrom text sub (lo + 1 - sub.length) = some i ↔
      OccursAt text sub i ∧ lo < i + sub.length ∧
        ∀ j, lo < j + sub.length → j < i → ¬ OccursAt text sub j := by
  rw [findFrom_eq_some hne]
  have hiff (j : Nat) : lo + 1 - sub.length ≤ j ↔ lo < j + sub.length := by omega
  simp only [hiff]

theorem findFrom_window_isSome (hne : sub ≠ []) :
    (findFrom text sub (lo + 1 - sub.length)).isSome ↔ EndsIn text sub lo text.length := by
  constructor
  · intro h
    obtain ⟨i, hi⟩ := Option.isSome_iff_exists.mp h
    obtain ⟨hocc, hlo, -⟩ := (findFrom_window hne).mp hi
    exact ⟨i, hocc, hlo, hocc.end_le hne⟩
  rintro ⟨i, hocc, hlo, hhi⟩
  by_contra hnone
  rw [Option.not_isSome_iff_eq_none, findFrom, find?_range'_eq_none] at hnone
  have := hnone i (by omega) (by omega)
  simp [hocc] at this

end TailBlend.TextSearch
