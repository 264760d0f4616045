import Mathlib.Data.List.Nodup

/-! Loops over keys whose turns change only what belongs to their key. -/
namespace TailBlend.Keyed
variable {ι α : Type*} [DecidableEq ι]

/-- `for k in ks: f[k] = F(k, f[k])`. -/
def updateEach (F : ι → α → α) (f : ι → α) (ks : List ι) : ι → α :=
  ks.foldl (fun f k => Function.update f k (F k (f k))) f

theorem updateEach_cons (F : ι → α → α) (f : ι → α) (k : ι) (ks : List ι) :
    updateEach F f (k :: ks) = updateEach F (Function.update f k (F k (f k))) ks := rfl

/-- What every turn keeps of each entry, the loop keeps. -/
theorem updateEach_keeps {β : Type*} (view : α → β) {F : ι → α → α}
    (hF : ∀ k a, view (F k a) = view a) (f : ι → α) (ks : List ι) (i : ι) :
    view (updateEach F f ks i) = view (f i) := by
  induction ks generalizing f with
  | nil => rfl
  | cons k ks ih =>
    rw [updateEach_cons, ih]
    by_cases hik : i = k
    · subst hik
      rw [Function.update_self, hF]
    · rw [Function.update_of_ne hik]

end TailBlend.Keyed
