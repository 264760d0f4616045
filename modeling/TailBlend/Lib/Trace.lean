import TailBlend.Lib.Py

/-! Runs of a machine whose steps may raise, with a condition on the state and the event of each
step. -/
namespace TailBlend.Trace
variable {σ τ : Type} {ε : Type*}

/-- A run; it ends where a step raises. -/
def run (step : σ → τ → Except ε σ) : σ → List τ → Except ε σ
  | s, [] => .ok s
  | s, t :: ts => do
    let s ← step s t
    run step s ts

theorem run_append (step : σ → τ → Except ε σ) (s : σ) (ts ts' : List τ) :
    run step s (ts ++ ts') = run step s ts >>= fun s => run step s ts' := by
  induction ts generalizing s with
  | nil => rfl
  | cons t ts ih =>
    simp only [List.cons_append, run]
    cases step s t with
    | error e => rfl
    | ok mid => exact ih mid

/-- Every event of the run meets `P` in the state it meets. -/
def Meets (step : σ → τ → Except ε σ) (P : σ → τ → Prop) : σ → List τ → Prop
  | _, [] => True
  | s, t :: ts => P s t ∧ ∀ s', step s t = .ok s' → Meets step P s' ts

variable {step : σ → τ → Except ε σ} {P : σ → τ → Prop} {s : σ} {ts : List τ}

/-- What every step under `P` keeps holds after every run under `P`. -/
theorem run_induct {I : σ → Prop} (hstep : ∀ s t s', I s → P s t → step s t = .ok s' → I s')
    {s' : σ} (hI : I s) (hP : Meets step P s ts) (hrun : run step s ts = .ok s') : I s' := by
  induction ts generalizing s with
  | nil =>
    obtain rfl : s = s' := by simpa [run] using hrun
    exact hI
  | cons t ts ih =>
    simp only [run, seq_ok_iff] at hrun
    obtain ⟨mid, hmid, hrest⟩ := hrun
    exact ih (hstep s t mid hI hP.1 hmid) (hP.2 mid hmid) hrest

theorem meets_of_forall {Q : τ → Prop} (h : ∀ t ∈ ts, Q t) (s : σ) :
    Meets step (fun _ => Q) s ts := by
  induction ts generalizing s with
  | nil => trivial
  | cons t ts ih =>
    obtain ⟨ht, hts⟩ := List.forall_mem_cons.mp h
    exact ⟨ht, fun s' _ => ih hts s'⟩

theorem meets_append {ts' : List τ} (h : Meets step P s (ts ++ ts')) :
    Meets step P s ts ∧ ∀ s', run step s ts = .ok s' → Meets step P s' ts' := by
  induction ts generalizing s with
  | nil => exact ⟨trivial, fun s' hs' => by cases hs'; exact h⟩
  | cons t ts ih =>
    refine ⟨⟨h.1, fun mid hmid => (ih (h.2 mid hmid)).1⟩, fun s' hs' => ?_⟩
    obtain ⟨mid, hmid, hrest⟩ := (seq_ok_iff ..).mp hs'
    exact (ih (h.2 mid hmid)).2 s' hrest

/-- A run raises nowhere when no step under `P` does. -/
theorem run_ok {I : σ → Prop} (hstep : ∀ s t, I s → P s t → ∃ s', step s t = .ok s' ∧ I s')
    (hI : I s) (hP : Meets step P s ts) : ∃ s', run step s ts = .ok s' ∧ I s' := by
  induction ts generalizing s with
  | nil => exact ⟨s, rfl, hI⟩
  | cons t ts ih =>
    obtain ⟨mid, hmid, hImid⟩ := hstep s t hI hP.1
    obtain ⟨s', hs', hIs'⟩ := ih hImid (hP.2 mid hmid)
    refine ⟨s', ?_, hIs'⟩
    rw [run, seq_ok_iff]
    exact ⟨mid, hmid, hs'⟩

/-- A test of every state in which the run takes a step. -/
def passes (step : σ → τ → Except ε σ) (test : σ → τ → Bool) : σ → List τ → Bool
  | _, [] => true
  | s, t :: ts => test s t && match step s t with
    | .ok s' => passes step test s' ts
    | .error _ => true

theorem meets_of_passes {test : σ → τ → Bool} (htest : ∀ s t, test s t = true → P s t)
    (h : passes step test s ts = true) : Meets step P s ts := by
  induction ts generalizing s with
  | nil => trivial
  | cons t ts ih =>
    rw [passes, Bool.and_eq_true] at h
    refine ⟨htest s t h.1, fun s' hstep => ih ?_⟩
    have hrest := h.2
    rw [hstep] at hrest
    exact hrest

instance decidableForallOk (x : Except ε σ) (P : σ → Prop) [DecidablePred P] :
    Decidable (∀ s, x = .ok s → P s) :=
  match x with
  | .ok s => decidable_of_iff (P s) ⟨fun h s' hs => by cases hs; exact h, fun h => h s rfl⟩
  | .error _ => isTrue fun s hs => by cases hs

instance decidableMeets (step : σ → τ → Except ε σ) (P : σ → τ → Prop) [∀ s t, Decidable (P s t)] :
    ∀ s ts, Decidable (Meets step P s ts)
  | _, [] => isTrue trivial
  | s, t :: ts =>
    haveI : DecidablePred fun s' => Meets step P s' ts := fun s' => decidableMeets step P s' ts
    inferInstanceAs (Decidable (P s t ∧ ∀ s', step s t = .ok s' → Meets step P s' ts))

end TailBlend.Trace
