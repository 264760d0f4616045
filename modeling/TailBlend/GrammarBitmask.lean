import TailBlend.GrammarObject
import TailBlend.Lib.Keyed
import TailBlend.Lib.Ragged
import TailBlend.Lib.Rows
import TailBlend.Lib.Trace

/-! The grammar bitmask of a step: `StructuredOutputManager.grammar_bitmask` fills it for the
scheduler, `apply_grammar_bitmask` puts its rows in the order of the worker's batch. -/
namespace TailBlend.Grammar
variable {γ ι : Type}

structure ReasoningParser where
  isReasoningEnd : List Int → Bool
  isReasoningEndStreaming : List Int → List Int → Bool

structure StructuredOutputRequest (γ : Type) where
  reasoner : ReasoningParser
  reasoningEnded : Option Bool
  grammar : γ

structure Request (γ : Type) where
  promptTokenIds : Option (List Int)
  allTokenIds : List Int
  numComputedTokens : Nat
  numOutputPlaceholders : Nat
  isPrefillChunk : Bool
  specTokenIds : List Int
  finished : Bool
  structuredOutputRequest : Option (StructuredOutputRequest γ)

def Request.useStructuredOutput (r : Request γ) : Bool := r.structuredOutputRequest.isSome

/-- What the manager reads of the configuration; `hasReasoner` stands for
`reasoner_cls is not None`, `numSpeculativeTokens` for the `speculative_config`. -/
structure ManagerConfig where
  hasReasoner : Bool
  enableInReasoning : Bool
  maxNumSeqs : Nat
  numSpeculativeTokens : Option Nat

namespace ManagerConfig

def maxNumSpecTokens (c : ManagerConfig) : Nat := c.numSpeculativeTokens.getD 0

/-- `_grammar_bitmask.shape[0]`. -/
def bitmaskRows (c : ManagerConfig) : Nat := c.maxNumSeqs * (1 + c.maxNumSpecTokens)

def fillBitmaskParallelThreshold : Nat := 128

def fillBitmaskParallelBatchSize : Nat := 16

end ManagerConfig

/-- `should_fill_bitmask`, with the request as it leaves it. -/
def shouldFillBitmask (c : ManagerConfig) (promptTokenIds : Option (List Int))
    (s : StructuredOutputRequest γ) : Bool × StructuredOutputRequest γ :=
  if c.hasReasoner then
    if c.enableInReasoning then (true, s)
    else
      let ended := s.reasoningEnded.getD (s.reasoner.isReasoningEnd (promptTokenIds.getD []))
      (ended, { s with reasoningEnded := some ended })
  else (true, s)

structure Entry (γ : Type) where
  grammar : γ
  index : Nat
  applyBitmask : Bool

def Entry.mask (b : Backend γ) (e : Entry γ) : Mask :=
  if e.applyBitmask && !b.isTerminated e.grammar then b.bitmask e.grammar else fullMask

def fillBitmasks (b : Backend γ) (numRows : Nat) (rows : Nat → Mask) (batch : List (Entry γ)) :
    Except PyError (Nat → Mask) :=
  Trace.run (fun rows e =>
    if e.index < numRows then .ok (Function.update rows e.index (e.mask b))
    else .error .indexError) rows batch

structure Walk (γ : Type) where
  rows : Nat → Mask
  grammar : γ
  applyBitmask : Bool
  stateAdvancements : Nat
  cumulativeIndex : Nat

def Walk.token (b : Backend γ) (numRows : Nat) (w : Walk γ) (token : Int) :
    Except PyError (Walk γ) := do
  let rows ← fillBitmasks b numRows w.rows [⟨w.grammar, w.cumulativeIndex, w.applyBitmask⟩]
  let applyBitmask := if token = -1 then false else w.applyBitmask
  if applyBitmask && !b.isTerminated w.grammar then
    match b.acceptTokens w.grammar [token] with
    | none => .error (.assertionError "accepted")
    | some g => .ok ⟨rows, g, applyBitmask, w.stateAdvancements + 1, w.cumulativeIndex + 1⟩
  else .ok ⟨rows, w.grammar, applyBitmask, w.stateAdvancements, w.cumulativeIndex + 1⟩

structure Filling (ι γ : Type) where
  requests : ι → Request γ
  rows : Nat → Mask
  cumulativeIndex : Nat

section manager
variable [DecidableEq ι]

def setStructured (requests : ι → Request γ) (id : ι) (s : StructuredOutputRequest γ) :
    ι → Request γ :=
  Function.update requests id { requests id with structuredOutputRequest := some s }

def fillRequest (b : Backend γ) (c : ManagerConfig) (drafts : ι → List Int) (f : Filling ι γ)
    (id : ι) : Except PyError (Filling ι γ) :=
  match (f.requests id).structuredOutputRequest with
  | none => .error (.runtimeError "'NoneType' object has no attribute 'grammar'")
  | some s => do
    let fill := shouldFillBitmask c (f.requests id).promptTokenIds s
    let w ← Trace.run (Walk.token b c.bitmaskRows)
      ⟨f.rows, fill.2.grammar, fill.1, 0, f.cumulativeIndex⟩ (drafts id ++ [-1])
    let grammar := if w.stateAdvancements > 0 then b.rollback w.grammar w.stateAdvancements
      else w.grammar
    .ok ⟨setStructured f.requests id { fill.2 with grammar }, w.rows, w.cumulativeIndex⟩

structure Dispatch (ι γ : Type) where
  requests : ι → Request γ
  promises : List (List (Entry γ))
  batch : List (Entry γ)
  cumulativeIndex : Nat

def dispatchRequest (c : ManagerConfig) (d : Dispatch ι γ) (id : ι) :
    Except PyError (Dispatch ι γ) :=
  match (d.requests id).structuredOutputRequest with
  | none => .error (.runtimeError "'NoneType' object has no attribute 'grammar'")
  | some s =>
    let fill := shouldFillBitmask c (d.requests id).promptTokenIds s
    let requests := setStructured d.requests id fill.2
    let batch := d.batch ++ [⟨fill.2.grammar, d.cumulativeIndex, fill.1⟩]
    if batch.length = ManagerConfig.fillBitmaskParallelBatchSize then
      .ok ⟨requests, d.promises ++ [batch], [], d.cumulativeIndex + 1⟩
    else .ok ⟨requests, d.promises, batch, d.cumulativeIndex + 1⟩

structure ThreadPool (γ : Type) where
  interleave : List (List (Entry γ)) → List (Entry γ)
  perm : ∀ batches, (interleave batches).Perm batches.flatten

def fillParallel (b : Backend γ) (c : ManagerConfig) (pool : ThreadPool γ) (f : Filling ι γ)
    (ids : List ι) : Except PyError (Filling ι γ) := do
  let d ← Trace.run (dispatchRequest c) ⟨f.requests, [], [], f.cumulativeIndex⟩ ids
  let promises := if d.batch = [] then d.promises else d.promises ++ [d.batch]
  let rows ← fillBitmasks b c.bitmaskRows f.rows (pool.interleave promises)
  .ok ⟨d.requests, rows, d.cumulativeIndex⟩

/-- The parallel loop for large batches without speculation, and the serial one otherwise. -/
def fillRows (b : Backend γ) (c : ManagerConfig) (pool : ThreadPool γ) (drafts : ι → List Int)
    (f : Filling ι γ) (ids : List ι) : Except PyError (Filling ι γ) :=
  if ids.length > ManagerConfig.fillBitmaskParallelThreshold ∧ c.maxNumSpecTokens = 0 then
    fillParallel b c pool f ids
  else Trace.run (fillRequest b c drafts) f ids

/-- `grammar_bitmask`; `buffer` is the tensor `_grammar_bitmask`, `None` before the first call. -/
def grammarBitmask (b : Backend γ) (c : ManagerConfig) (pool : ThreadPool γ)
    (buffer : Option (Nat → Mask)) (requests : ι → Request γ) (ids : List ι)
    (drafts : ι → List Int) :
    Except PyError (Option (List Mask) × Option (Nat → Mask) × (ι → Request γ)) :=
  if ids = [] then .ok (none, buffer, requests)
  else do
    let f ← fillRows b c pool drafts ⟨requests, buffer.getD fun _ => fullMask, 0⟩ ids
    let numRows := if f.cumulativeIndex < c.bitmaskRows then f.cumulativeIndex else c.bitmaskRows
    .ok (some ((List.range numRows).map f.rows), some f.rows, f.requests)

structure GrammarOutput (ι : Type) where
  structuredOutputRequestIds : List ι
  grammarBitmask : List Mask

end manager

def numLogits (drafts : ι → List Int) (id : ι) : Nat := 1 + (drafts id).length

section worker
variable [DecidableEq ι]

structure Placing (ι : Type) where
  batchIndex : Nat
  cumulativeOffset : Nat
  indices : ι → Option Nat

def Placing.request (drafts : ι → List Int) (ids : List ι) (p : Placing ι) (id : ι) : Placing ι :=
  let logitIndex := p.batchIndex + p.cumulativeOffset
  { batchIndex := p.batchIndex + 1
    cumulativeOffset := p.cumulativeOffset + (drafts id).length
    indices := if id ∈ ids then Function.update p.indices id (some logitIndex) else p.indices }

def structOutReqBatchIndices (drafts : ι → List Int) (ids reqIds : List ι) : ι → Option Nat :=
  (reqIds.foldl (Placing.request drafts ids) ⟨0, 0, fun _ => none⟩).indices

structure Sorting where
  cumulativeIndex : Nat
  sortedBitmask : Nat → Mask
  outIndices : List Nat

/-- `sorted_bitmask[logit_idx + i] = grammar_bitmask[cumulative_index + i]`. -/
def Sorting.copy (numRows : Nat) (bitmask : List Mask) (logitIdx : Nat) (s : Sorting) (i : Nat) :
    Except PyError Sorting :=
  match bitmask[s.cumulativeIndex + i]? with
  | none => .error .indexError
  | some row =>
    if logitIdx + i < numRows then
      .ok { s with
        sortedBitmask := Function.update s.sortedBitmask (logitIdx + i) row
        outIndices := s.outIndices ++ [logitIdx + i] }
    else .error .indexError

def Sorting.request (numRows : Nat) (bitmask : List Mask) (drafts : ι → List Int)
    (indices : ι → Option Nat) (s : Sorting) (id : ι) : Except PyError Sorting := do
  let s ← match indices id with
    | none => .ok s
    | some logitIdx =>
      Trace.run (Sorting.copy numRows bitmask logitIdx) s (List.range (numLogits drafts id))
  .ok { s with cumulativeIndex := s.cumulativeIndex + numLogits drafts id }

/-- `apply_grammar_bitmask`: the tokens that each of the `numRows` rows of the logits still
allows. The kernel leaves the rows alone that are not among the indices it is given. -/
def applyGrammarBitmask (drafts : ι → List Int) (g : GrammarOutput ι) (reqIds : List ι)
    (numRows : Nat) : Except PyError (Nat → Mask) := do
  let ids := g.structuredOutputRequestIds
  let s ← Trace.run
    (Sorting.request numRows g.grammarBitmask drafts (structOutReqBatchIndices drafts ids reqIds))
    ⟨0, fun _ => fullMask, []⟩ ids
  let skipOutIndices := s.outIndices.length = numRows
  .ok fun row => if skipOutIndices ∨ row ∈ s.outIndices then s.sortedBitmask row else fullMask

/-- The worker's side of a step: the logits of a request start after those of the requests before
it in the batch, and are masked if the scheduler sent a bitmask. -/
def maskLogits (drafts : ι → List Int) (g : Option (GrammarOutput ι)) (reqIds : List ι) :
    Except PyError (Nat → Mask) :=
  match g with
  | none => .ok fun _ => fullMask
  | some g => applyGrammarBitmask drafts g reqIds
      (Ragged.start (numLogits drafts) reqIds reqIds.length)

end worker

end TailBlend.Grammar
