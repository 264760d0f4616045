import Mathlib.Data.List.Basic
import Mathlib.Tactic.Linarith
import Mathlib.Tactic.Ring

/-! Integers, indices and exceptions as Python has them. -/
namespace TailBlend
universe u

inductive PyError where
  | assertionError (msg : String)
  | valueError (msg : String)
  | runtimeError (msg : String)
  | notImplementedError (msg : String)
  | indexError
  | keyError
  | stopIteration
  deriving DecidableEq, Repr

/-- `assert c, msg`. -/
def pyAssert (c : Prop) [Decidable c] (msg : String) : Except PyError Unit :=
  if c then .ok () else .error (.assertionError msg)

@[simp] theorem pyAssert_eq_ok (c : Prop) [Decidable c] (msg : String) (u : Unit) :
    pyAssert c msg = .ok u ↔ c := by
  unfold pyAssert
  split <;> simp_all

/-- A sequence of calls returns when each one does. -/
theorem seq_ok_iff {ε : Type*} {β γ : Type u} (x : Except ε β) (f : β → Except ε γ) (c : γ) :
    (x >>= f) = .ok c ↔ ∃ b, x = .ok b ∧ f b = .ok c := by
  cases x <;> simp [bind, Except.bind]

/-- A call whose result passes a test returns. -/
theorem ok_of_any {ε : Type*} {β : Type u} {x : Except ε β} {test : β → Bool}
    (h : x.toOption.any test = true) : ∃ b, x = .ok b ∧ test b = true := by
  cases x with
  | error e => cases h
  | ok b => exact ⟨b, rfl, h⟩

/-- `cdiv(a, b) = -(-a // b)`. -/
def cdiv (a : Int) (b : Nat) : Int := -((-a) / (b : Int))

variable {b : Nat} {a : Int}

theorem cdiv_le_iff (a k : Int) (hb : 0 < b) : cdiv a b ≤ k ↔ a ≤ k * b := by
  have hb' : (0 : Int) < b := by exact_mod_cast hb
  unfold cdiv
  rw [neg_le, Int.le_ediv_iff_mul_le hb']
  constructor <;> intro h <;> nlinarith

theorem lt_cdiv_iff (a k : Int) (hb : 0 < b) : k < cdiv a b ↔ k * b < a := by
  rw [← not_le, cdiv_le_iff a k hb, not_le]

theorem le_cdiv_mul (a : Int) (hb : 0 < b) : a ≤ cdiv a b * b := (cdiv_le_iff a _ hb).mp le_rfl

theorem cdiv_nonneg (ha : 0 ≤ a) (hb : 0 < b) : 0 ≤ cdiv a b := by
  have h := (lt_cdiv_iff a (-1) hb).mpr (by omega)
  omega

theorem cdiv_pos (ha : 0 < a) (hb : 0 < b) : 0 < cdiv a b :=
  (lt_cdiv_iff a 0 hb).mpr (by simpa using ha)

theorem cdiv_mono {c : Int} (h : a ≤ c) (hb : 0 < b) : cdiv a b ≤ cdiv c b :=
  (cdiv_le_iff a _ hb).mpr (h.trans (le_cdiv_mul c hb))

theorem cdiv_add_mul (a k : Int) (hb : 0 < b) : cdiv (a + k * b) b = cdiv a b + k := by
  have hb' : (b : Int) ≠ 0 := by exact_mod_cast hb.ne'
  unfold cdiv
  have : -(a + k * b) = -a + (-k) * b := by ring
  rw [this, Int.add_mul_ediv_right _ _ hb']
  ring

/-- Place of `l[i]`: a negative index counts from the end. -/
def pyIndex (n : Nat) (i : Int) : Option Nat :=
  if 0 ≤ i then (if i < n then some i.toNat else none)
  else if 0 ≤ i + n then some (i + n).toNat else none

theorem pyIndex_lt {n : Nat} {i : Int} {j : Nat} (h : pyIndex n i = some j) : j < n := by
  unfold pyIndex at h
  split_ifs at h <;> simp at h <;> omega

theorem pyIndex_of_nonneg {n : Nat} {i : Int} (h0 : 0 ≤ i) (hn : i < n) :
    pyIndex n i = some i.toNat := by
  simp [pyIndex, h0, hn]

/-- Place of a slice bound: a negative one counts from the end. -/
def pyBound (n : Nat) (i : Int) : Nat := if i < 0 then (i + n).toNat else min i.toNat n

def pySlice {β : Type*} (l : List β) (start stop : Int) : List β :=
  (l.take (pyBound l.length stop)).drop (pyBound l.length start)

end TailBlend
