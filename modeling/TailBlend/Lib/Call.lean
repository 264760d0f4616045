import TailBlend.Lib.Py

/-! Calls on an object: a call may raise, keeping what it changed before, or may not return. -/
namespace TailBlend

/-- The object before to the reply and the object after; `none` where the call has not returned. -/
abbrev Call (σ α : Type) := ExceptT PyError (StateT σ Option) α

namespace Call
variable {σ α β : Type} {x : Call σ α} {s s' : σ} {a : α}

theorem bind_ok (f : α → Call σ β) (h : x s = some (.ok a, s')) : (x >>= f) s = f a s' := by
  change (x s).bind _ = _
  rw [h]
  rfl

theorem bind_none (f : α → Call σ β) (h : x s = none) : (x >>= f) s = none := by
  change (x s).bind _ = _
  rw [h]
  rfl

/-- A sequence of calls returns a value when each one does. -/
theorem bind_eq_ok {f : α → Call σ β} {b : β} :
    (x >>= f) s = some (.ok b, s') ↔
      ∃ a mid, x s = some (.ok a, mid) ∧ f a mid = some (.ok b, s') := by
  constructor
  · intro h
    match hx : x s with
    | none =>
      rw [bind_none f hx] at h
      cases h
    | some (.ok a, mid) => exact ⟨a, mid, rfl, (bind_ok f hx).symm.trans h⟩
    | some (.error e, mid) =>
      change (x s).bind _ = _ at h
      rw [hx] at h
      cases h
  · rintro ⟨a, mid, hx, hf⟩
    exact (bind_ok f hx).trans hf

end Call

end TailBlend
