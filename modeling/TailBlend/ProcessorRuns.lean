import TailBlend.ProcessorRows
import TailBlend.RowRuns
import Mathlib.Algebra.BigOperators.Ring.Finset

/-! Runs of the batch with the logits processors: every state stays with its request. -/
namespace TailBlend.Batch
open Rows InputBatch
variable {ι ε γ : Type} [DecidableEq ι]

omit [DecidableEq ι] in
theorem MinP.nonzero_eq_card (n : Nat) (f : Nat → ℚ) :
    MinP.nonzero n f = ((Finset.range n).filter (fun i => f i ≠ 0)).card := by
  rw [MinP.nonzero, Finset.sum_boole]

namespace Machine

def Unshared (states : States ι ε γ) : Prop :=
  ∀ i j r, states i = some r → states j = some r → i = j

/-- Every processor holds at each row the state of the request there, and nothing at the rows of
requests that do not use it. -/
structure Follows (f32 : ℚ → ℚ) (isEnabled : Bool) (m : Machine ι ε γ) : Prop where
  minP : ∀ i, m.processors.minP.minPCpu i = MinP.level f32 (m.batch.occupant i)
  count : m.processors.minP.minPCount =
    ((Finset.range m.batch.numReqs).filter (fun i => m.processors.minP.minPCpu i ≠ 0)).card
  biases : ∀ i, m.processors.biases i = (m.batch.occupant i).filter Request.biased
  minToks : ∀ i, m.processors.minToks i = (m.batch.occupant i).filter (needsTokens m.outputs)
  budget : ∀ i, m.processors.budget i =
    (m.batch.occupant i).filter (fun r => isEnabled && r.budgeted)
  unshared_biases : Unshared m.processors.biases
  unshared_minToks : Unshared m.processors.minToks
  unshared_budget : Unshared m.processors.budget

/-- A value of `min_p` other than 0 is not rounded to 0. -/
def representable (f32 : ℚ → ℚ) : Guards ι ε γ where
  add := fun _ r => r.minP ≠ 0 → f32 r.minP ≠ 0
  move := fun _ _ _ => True
  swap := fun _ _ _ => True

instance (f32 : ℚ → ℚ) (s : InputBatch ι ε γ) (r : Request ι ε γ) :
    Decidable ((representable f32).add s r) :=
  inferInstanceAs (Decidable (r.minP ≠ 0 → f32 r.minP ≠ 0))

instance (f32 : ℚ → ℚ) (s : InputBatch ι ε γ) (i j : Nat) :
    Decidable ((representable f32).move s i j) := isTrue trivial

instance (f32 : ℚ → ℚ) (s : InputBatch ι ε γ) (i j : Nat) :
    Decidable ((representable f32).swap s i j) := isTrue trivial

/-- The calls of the step are allowed, no `min_p` is rounded to 0, no output is cut below a
minimum that it had reached, and budgets move only where the holder can follow. -/
structure Safe (f32 : ℚ → ℚ) (isEnabled : Bool) (m : Machine ι ε γ) (e : Event ι ε γ) : Prop where
  calls : (representable f32).Meets m.batch e.calls
  outputs : ∀ i r, m.batch.occupant i = some r → r.minTokens ≤ m.outputs r →
    r.minTokens ≤ e.outputs r
  budget : isEnabled = true → ∀ u b, m.batch.step e.calls = .ok (u, b) →
    States.SyncSafe m.batch.occupant u

structure Simulates (f32 : ℚ → ℚ) (isEnabled : Bool) (m : Machine ι ε γ) : Prop where
  ready : InputBatch.Ready m.batch
  sampling : m.batch.config.isPoolingModel = false
  minP : m.processors.minP.minPCpu = fun i => MinP.level f32 (m.batch.occupant i)
  count : MinP.Counted m.batch.config.maxNumReqs m.processors.minP
  biases : m.processors.biases = held Request.biased m.batch.occupant
  minToks : m.processors.minToks = held (needsTokens m.outputs) m.batch.occupant
  budget : m.processors.budget = held (fun r => isEnabled && r.budgeted) m.batch.occupant

variable {occ occ' : States ι ε γ} {isEnabled : Bool} {u : Option (BatchUpdate ι ε γ)}
  {m : Machine ι ε γ} {f32 : ℚ → ℚ}

section
omit [DecidableEq ι]

theorem held_congr {P P' : Request ι ε γ → Bool} (h : ∀ i r, occ i = some r → P r = P' r) :
    held P occ = held P' occ := by
  funext i
  unfold held
  cases hr : occ i with
  | none => rfl
  | some r => rw [Option.filter_some, Option.filter_some, h i r hr]

theorem held_held (P Q : Request ι ε γ → Bool) (occ : States ι ε γ) :
    held Q (held P occ) = held (fun r => P r && Q r) occ := by
  funext i
  unfold held
  cases occ i with
  | none => rfl
  | some r => cases hp : P r <;> cases hq : Q r <;> simp [Option.filter, hp]

theorem syncBatch_enabled {n : Nat} (h : Replays n u occ occ')
    (hsafe : isEnabled = true → States.SyncSafe occ u) :
    States.syncBatch isEnabled (held (fun r => isEnabled && r.budgeted) occ) u =
      held (fun r => isEnabled && r.budgeted) occ' := by
  cases isEnabled with
  | true => exact States.syncBatch_held h (hsafe rfl)
  | false =>
    have hnone (occ : States ι ε γ) : held (fun r => false && r.budgeted) occ = fun _ => none := by
      funext i
      unfold held
      cases occ i <;> rfl
    rw [hnone, hnone]
    cases u <;> rfl

theorem minToks_held {outputs outputs' : Request ι ε γ → Nat} {n : Nat} (h : Replays n u occ occ')
    (hout : ∀ i r, occ i = some r → r.minTokens ≤ outputs r → r.minTokens ≤ outputs' r) :
    held (fun r => outputs' r < r.minTokens)
        (States.processDictUpdates (needsTokens outputs') (held (needsTokens outputs) occ) u) =
      held (needsTokens outputs') occ' := by
  have hnew : (fun r : Request ι ε γ =>
      needsTokens outputs' r && decide (outputs' r < r.minTokens)) = needsTokens outputs' := by
    funext r
    unfold needsTokens
    by_cases hlt : outputs' r < r.minTokens <;> simp [hlt]
  have hold : held (fun r : Request ι ε γ => decide (outputs' r < r.minTokens))
      (held (needsTokens outputs) occ) = held (needsTokens outputs') occ := by
    rw [held_held]
    refine held_congr fun i r hr => ?_
    have := hout i r hr
    unfold needsTokens
    by_cases hlt : outputs' r < r.minTokens
    · have : outputs r < r.minTokens := by omega
      simp [this]
    · simp [hlt]
  rw [States.processDictUpdates_filter _ _ _ h, hnew, hold]
  exact States.processDictUpdates_held _ h

end

theorem Simulates.step (hf : f32 0 = 0) (h : Simulates f32 isEnabled m)
    {e : Event ι ε γ} (hs : Safe f32 isEnabled m e) :
    ∃ m', m.step f32 isEnabled e = .ok m' ∧ Simulates f32 isEnabled m' := by
  obtain ⟨u, b, hstep, hready, hconfig, hreplays, hadded⟩ := h.ready.step h.sampling hs.calls
    (Q := fun r => r.minP ≠ 0 → f32 r.minP ≠ 0) (fun _ _ hr => hr)
  have hexact : ∀ v, u = some v → ∀ e ∈ v.added, f32 e.2.minP = 0 ↔ e.2.minP = 0 := by
    intro v hv e he
    constructor
    · intro hz
      by_contra hne
      exact hadded v hv e he hne hz
    · intro hz
      rw [hz, hf]
  obtain ⟨hminP, hcount⟩ := MinP.updateState_level h.count hreplays h.minP hexact
  refine ⟨{
    batch := b
    processors := m.processors.update f32 isEnabled e.outputs u
    outputs := e.outputs }, ?_, hready, ?_, hminP, ?_, ?_, ?_, ?_⟩
  · rw [Machine.step, seq_ok_iff]
    exact ⟨(u, b), hstep, rfl⟩
  · simp only [hconfig]
    exact h.sampling
  · simp only [hconfig]
    exact hcount
  · simp only [Processors.update, h.biases]
    exact States.processDictUpdates_held _ hreplays
  · simp only [Processors.update, h.minToks]
    exact minToks_held hreplays hs.outputs
  · simp only [Processors.update, h.budget]
    exact syncBatch_enabled hreplays fun hon => hs.budget hon u b hstep

theorem unshared_held {s : InputBatch ι ε γ} (h : Indexed s) (P : Request ι ε γ → Bool) :
    Unshared (held P s.occupant) := by
  intro i j r hi hj
  exact h.unique (Option.filter_eq_some_iff.mp hi).1 (Option.filter_eq_some_iff.mp hj).1 rfl

theorem Simulates.follows (h : Simulates f32 isEnabled m) : Follows f32 isEnabled m := by
  refine ⟨congrFun h.minP, ?_, congrFun h.biases, congrFun h.minToks, congrFun h.budget, ?_, ?_, ?_⟩
  · have hcount := h.count
    rw [MinP.Counted, MinP.nonzero_eq_card] at hcount
    rw [hcount]
    have hle : m.batch.numReqs ≤ m.batch.config.maxNumReqs := by
      rw [h.ready.count]
      exact h.ready.fits
    congr 2
    ext i
    simp only [Finset.mem_filter, Finset.mem_range]
    refine ⟨fun ⟨_, hne⟩ => ⟨?_, hne⟩, fun ⟨hi, hne⟩ => ⟨by omega, hne⟩⟩
    by_contra hge
    apply hne
    have hnone := h.ready.beyond i (by rw [← h.ready.count]; omega)
    simp only [h.minP, hnone]
    rfl
  · rw [h.biases]
    exact unshared_held h.ready.toIndexed _
  · rw [h.minToks]
    exact unshared_held h.ready.toIndexed _
  · rw [h.budget]
    exact unshared_held h.ready.toIndexed _

theorem init_simulates (f32 : ℚ → ℚ) (isEnabled : Bool) {config : Config}
    (hpool : config.isPoolingModel = false) :
    Simulates f32 isEnabled (init config : Machine ι ε γ) := by
  refine ⟨init_ready config, hpool, rfl, ?_, rfl, rfl, rfl⟩
  simp [MinP.Counted, MinP.nonzero, init, Processors.init]

/-- In every run whose steps are safe the processors follow the requests. -/
theorem processors_follow {f32 : ℚ → ℚ} (hf : f32 0 = 0) {isEnabled : Bool} {config : Config}
    (hpool : config.isPoolingModel = false) {es : List (Event ι ε γ)}
    (h : Trace.Meets (step f32 isEnabled) (Safe f32 isEnabled) (init config) es) :
    ∃ m, Trace.run (step f32 isEnabled) (init config) es = .ok m ∧ InputBatch.Ready m.batch ∧
      Follows f32 isEnabled m := by
  obtain ⟨m, hm, hsim⟩ := Trace.run_ok (I := Simulates f32 isEnabled)
    (fun m e hm hs => hm.step hf hs) (init_simulates f32 isEnabled hpool) h
  exact ⟨m, hm, hsim.ready, hsim.follows⟩

/-! Runs in which a state does not follow its request -/

section Examples

def budgeted (id : Nat) : Request Nat Unit Unit :=
  smallRequest id (.sampling { smallParams with thinkingTokenBudget := some 5 }) none

def levelled (id : Nat) (minP : ℚ) : Request Nat Unit Unit :=
  smallRequest id (.sampling { smallParams with minP := minP }) none

def lengthy (id : Nat) (minTokens : Nat) : Request Nat Unit Unit :=
  smallRequest id (.sampling { smallParams with minTokens := minTokens }) none

def smallEvent (removed : List Nat) (added : List (Request Nat Unit Unit))
    (reordered : List (Nat × Nat)) (output : Nat) : Event Nat Unit Unit where
  calls := { removed := removed, added := added, swaps := [], reordered := reordered }
  outputs := fun _ => output

/-- A rounding that takes one small number to 0. -/
def smallF32 (x : ℚ) : ℚ := if x = 1 / 10 ^ 50 then 0 else x

def smallRun (es : List (Event Nat Unit Unit)) : Except PyError (Machine Nat Unit Unit) :=
  Trace.run (step smallF32 true) (init (smallConfig false)) es

theorem smallRun_diverges {es : List (Event Nat Unit Unit)} (test : Machine Nat Unit Unit → Bool)
    (htest : ∀ m, Follows smallF32 true m → test m = true)
    (h : (smallRun es).toOption.any (fun m => !test m) = true) :
    ∃ m, smallRun es = .ok m ∧ ¬ Follows smallF32 true m := by
  obtain ⟨m, hrun, h⟩ := ok_of_any h
  refine ⟨m, hrun, fun hm => ?_⟩
  simp [htest m hm] at h

/-- Two requests with budgets that change their rows. -/
theorem processors_follow_exchange :
    ∃ m, smallRun [smallEvent [] [budgeted 0, budgeted 1] [(0, 1)] 0] = .ok m ∧
      InputBatch.Ready m.batch ∧ Follows smallF32 true m := by
  refine processors_follow (by decide +kernel) rfl ⟨⟨?_, ?_, ?_⟩, fun _ _ => trivial⟩
  · decide +kernel
  · intro i r hr
    cases hr
  have hsafe : ∀ p, (init (smallConfig false) : Machine Nat Unit Unit).batch.step
      (smallEvent [] [budgeted 0, budgeted 1] [(0, 1)] 0).calls = .ok p →
      States.SyncSafe (init (smallConfig false) : Machine Nat Unit Unit).batch.occupant p.1 := by
    decide +kernel
  exact fun _ u b hstep => hsafe (u, b) hstep

/-- In four runs that the calls allow a state is not where its request is: after an exchange and
after `condense` a row without a budget holds a state, the count includes a row whose value was
rounded to 0, and an output cut below its minimum has no state. -/
theorem processors_diverge :
    (∃ m, smallRun [smallEvent [] [budgeted 0, plain 1] [(0, 1)] 0] = .ok m ∧
      ¬ Follows smallF32 true m) ∧
    (∃ m, smallRun [smallEvent [] [budgeted 0, plain 1] [] 0, smallEvent [0] [] [] 0] = .ok m ∧
      ¬ Follows smallF32 true m) ∧
    (∃ m, smallRun [smallEvent [] [levelled 0 (1 / 2)] [] 0,
        smallEvent [0] [levelled 1 (1 / 10 ^ 50)] [] 0] = .ok m ∧
      ¬ Follows smallF32 true m) ∧
    ∃ m, smallRun [smallEvent [] [lengthy 0 2] [] 0,
        smallEvent [] [] [] 2, smallEvent [] [] [] 1] = .ok m ∧ ¬ Follows smallF32 true m := by
  have hbudget (m : Machine Nat Unit Unit) (h : Follows smallF32 true m) :
      ((m.processors.budget 0).isSome == ((m.batch.occupant 0).filter
        (fun r => true && r.budgeted)).isSome) = true := by
    rw [h.budget 0, beq_self_eq_true]
  refine ⟨smallRun_diverges _ hbudget ?_, smallRun_diverges _ hbudget ?_, smallRun_diverges
    (fun m => m.processors.minP.minPCount == ((Finset.range m.batch.numReqs).filter
      (fun i => m.processors.minP.minPCpu i ≠ 0)).card) (fun m h => ?_) ?_, smallRun_diverges
    (fun m => (m.processors.minToks 0).isSome == ((m.batch.occupant 0).filter
      (needsTokens m.outputs)).isSome) (fun m h => ?_) ?_⟩
  · decide +kernel
  · decide +kernel
  · rw [h.count, beq_self_eq_true]
  · decide +kernel
  · rw [h.minToks 0, beq_self_eq_true]
  · decide +kernel

end Examples

end Machine
end TailBlend.Batch
