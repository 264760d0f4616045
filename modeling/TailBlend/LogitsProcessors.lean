import TailBlend.BatchRecord

/-! The logits processors with a state for each row and the holder of the thinking budgets: how
they follow the updates of the batch. -/
namespace TailBlend.Batch
open Rows Function
variable {ι ε γ : Type}

namespace Request

def minP (r : Request ι ε γ) : ℚ :=
  match r.params with
  | .sampling p => p.minP
  | .pooling _ => 0

/-- `params.logit_bias or None` is not `None`. -/
def biased (r : Request ι ε γ) : Bool :=
  match r.params with
  | .sampling p => !p.logitBias.isEmpty
  | .pooling _ => false

def minTokens (r : Request ι ε γ) : Nat :=
  match r.params with
  | .sampling p => p.minTokens
  | .pooling _ => 0

def budgeted (r : Request ι ε γ) : Bool :=
  match r.params with
  | .sampling p => p.thinkingTokenBudget.isSome
  | .pooling _ => false

end Request

/-- A dict from rows to state objects; an object is named by the request that it was made for. -/
abbrev States (ι ε γ : Type) := Nat → Option (Request ι ε γ)

namespace States

def addEntry (new : Request ι ε γ → Bool) (entries : States ι ε γ) (e : Nat × Request ι ε γ) :
    States ι ε γ :=
  if new e.2 then update entries e.1 (some e.2) else update entries e.1 none

def pop (entries : States ι ε γ) (i : Nat) : States ι ε γ := update entries i none

def moveEntry (entries : States ι ε γ) : Nat × Nat × MoveDirectionality → States ι ε γ
  | (a, b, direct) =>
    let aEntry := entries a
    let entries := entries.pop a
    let bEntry := entries b
    let entries := entries.pop b
    let entries := if aEntry.isSome then update entries b aEntry else entries
    if bEntry.isSome ∧ direct = .swap then update entries a bEntry else entries

/-- `process_dict_updates`; the removals and the moves do nothing to an empty dict. -/
def processDictUpdates (new : Request ι ε γ → Bool) (entries : States ι ε γ) :
    Option (BatchUpdate ι ε γ) → States ι ε γ
  | none => entries
  | some u =>
    let entries := u.added.foldl (addEntry new) entries
    let entries := u.removed.foldl pop entries
    u.moved.foldl moveEntry entries

def syncMove (state : States ι ε γ) : Nat × Nat × MoveDirectionality → States ι ε γ
  | (a, b, .swap) =>
    let state1 := state a
    let state2 := state b
    let state := if state1.isSome then update state b state1 else state
    if state2.isSome then update state a state2 else state
  | (a, b, .unidirectional) =>
    let moved := state a
    let state := state.pop a
    if moved.isSome then update state b moved else state

def syncBatch (isEnabled : Bool) (state : States ι ε γ) :
    Option (BatchUpdate ι ε γ) → States ι ε γ
  | none => state
  | some u =>
    if isEnabled then
      let state := u.removed.foldl pop state
      let state := u.added.foldl (addEntry Request.budgeted) state
      u.moved.foldl syncMove state
    else state

end States

structure MinP where
  minPCpu : Nat → ℚ
  minPCount : Int

namespace MinP

/-- `f32` rounds to the numbers that the array can hold. -/
def addRequest (f32 : ℚ → ℚ) (s : MinP) (e : Nat × Request ι ε γ) : MinP :=
  let before := s.minPCpu e.1
  if before ≠ f32 e.2.minP then
    { minPCpu := update s.minPCpu e.1 (f32 e.2.minP)
      minPCount :=
        if e.2.minP ≠ 0 ∧ before = 0 then s.minPCount + 1
        else if e.2.minP = 0 ∧ before ≠ 0 then s.minPCount - 1
        else s.minPCount }
  else s

def removeRequest (s : MinP) (i : Nat) : MinP :=
  if s.minPCpu i ≠ 0 then
    { minPCpu := update s.minPCpu i 0, minPCount := s.minPCount - 1 }
  else s

def moveRequest (s : MinP) : Nat × Nat × MoveDirectionality → MinP
  | (a, b, direct) =>
    let minPA := s.minPCpu a
    let minPB := s.minPCpu b
    let cpu := if minPA ≠ minPB then
        let cpu := update s.minPCpu b minPA
        if direct = .swap then update cpu a minPB else cpu
      else s.minPCpu
    if direct = .unidirectional then
      { minPCpu := if minPA ≠ 0 then update cpu a 0 else cpu
        minPCount := if minPB ≠ 0 then s.minPCount - 1 else s.minPCount }
    else { s with minPCpu := cpu }

def updateState (f32 : ℚ → ℚ) (s : MinP) : Option (BatchUpdate ι ε γ) → MinP
  | none => s
  | some u =>
    let s := u.added.foldl (addRequest f32) s
    if s.minPCount ≠ 0 then u.moved.foldl moveRequest (u.removed.foldl removeRequest s) else s

end MinP

def needsTokens (outputs : Request ι ε γ → Nat) (r : Request ι ε γ) : Bool :=
  r.minTokens ≠ 0 ∧ outputs r < r.minTokens

structure Processors (ι ε γ : Type) where
  minP : MinP
  biases : States ι ε γ
  minToks : States ι ε γ
  budget : States ι ε γ

namespace Processors

def init : Processors ι ε γ where
  minP := { minPCpu := fun _ => 0, minPCount := 0 }
  biases := fun _ => none
  minToks := fun _ => none
  budget := fun _ => none

/-- The lengths of the outputs are those at the time of the update. -/
def update (f32 : ℚ → ℚ) (isEnabled : Bool) (outputs : Request ι ε γ → Nat)
    (p : Processors ι ε γ) (u : Option (BatchUpdate ι ε γ)) : Processors ι ε γ where
  minP := p.minP.updateState f32 u
  biases := p.biases.processDictUpdates Request.biased u
  -- requests that have attained their minimum are dropped
  minToks := fun i => (p.minToks.processDictUpdates (needsTokens outputs) u i).filter
    (fun r => outputs r < r.minTokens)
  budget := p.budget.syncBatch isEnabled u

end Processors

structure Machine (ι ε γ : Type) where
  batch : InputBatch ι ε γ
  processors : Processors ι ε γ
  /-- Ghost: the lengths of the outputs at the last update. -/
  outputs : Request ι ε γ → Nat

structure Event (ι ε γ : Type) where
  calls : InputBatch.Step ι ε γ
  outputs : Request ι ε γ → Nat

namespace Machine
variable [DecidableEq ι]

def init (config : Config) : Machine ι ε γ where
  batch := .init config
  processors := .init
  outputs := fun _ => 0

def step (f32 : ℚ → ℚ) (isEnabled : Bool) (m : Machine ι ε γ) (e : Event ι ε γ) :
    Except PyError (Machine ι ε γ) := do
  let (u, batch) ← m.batch.step e.calls
  return {
    batch := batch
    processors := m.processors.update f32 isEnabled e.outputs u
    outputs := e.outputs }

end Machine
end TailBlend.Batch
