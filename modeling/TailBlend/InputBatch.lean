import TailBlend.Lib.OrderedDict
import TailBlend.Lib.Rows
import TailBlend.Lib.Trace

/-! The persistent batch of the model runner: its rows and the record of their changes. -/
namespace TailBlend.Batch
open Rows OrderedDict Function

structure SamplingParams where
  temperature : ℚ
  topP : ℚ
  topK : Int
  frequencyPenalty : ℚ
  presencePenalty : ℚ
  repetitionPenalty : ℚ
  /-- Empty when there is no restriction. -/
  allowedTokenIds : List Nat
  badWordsTokenIds : List (List Nat)
  minP : ℚ
  logitBias : List (Nat × ℚ)
  minTokens : Nat
  allStopTokenIds : List Nat
  thinkingTokenBudget : Option Int
  deriving DecidableEq

def samplingEps : ℚ := 1 / 100000

/-- `sampling_type == GREEDY`. -/
def SamplingParams.greedy (p : SamplingParams) : Bool := p.temperature < samplingEps

inductive RequestParams where
  | sampling (params : SamplingParams)
  | pooling (requiresTokenIds : Bool)
  deriving DecidableEq

/-- `CachedRequestState`, with identifiers, embedding vectors and generators of any type. -/
structure Request (ι ε γ : Type) where
  reqId : ι
  promptTokenIds : Option (List Nat)
  promptIsTokenIds : Option (List Bool)
  promptEmbeds : Option (List ε)
  outputTokenIds : List Nat
  numComputedTokens : Nat
  blockIds : List (List Nat)
  params : RequestParams
  generator : Option γ
  loraIntId : Option Nat

variable {ι ε γ : Type}

namespace Request

/-- `length_from_prompt_token_ids_or_embeds`. -/
def numPromptTokens (r : Request ι ε γ) : Nat :=
  match r.promptTokenIds, r.promptEmbeds with
  | some ids, _ => ids.length
  | none, some embeds => embeds.length
  | none, none => 0

def numTokens (r : Request ι ε γ) : Nat := r.numPromptTokens + r.outputTokenIds.length

/-- The written part of the mask of the token ids. -/
def isTokenIds (r : Request ι ε γ) : List Bool :=
  match r.promptTokenIds, r.promptIsTokenIds with
  | some _, some mask => mask
  | some _, none => List.replicate r.numPromptTokens true
  | none, _ => List.replicate r.numPromptTokens false

end Request

structure BlockTable where
  blocksPerKvBlock : Nat
  blockTable : Nat → Nat → Nat
  numBlocksPerRow : Nat → Nat

namespace BlockTable

variable (t : BlockTable)

def mapToKernelBlocks (blockIds : List Nat) : List Nat :=
  if t.blocksPerKvBlock = 1 then blockIds
  else blockIds.flatMap (fun b => (List.range t.blocksPerKvBlock).map
    (fun k => b * t.blocksPerKvBlock + k))

def appendRow (blockIds : List Nat) (row : Nat) : BlockTable :=
  if blockIds = [] then t
  else
    let ids := t.mapToKernelBlocks blockIds
    let start := t.numBlocksPerRow row
    { t with
      numBlocksPerRow := update t.numBlocksPerRow row (start + ids.length)
      blockTable := update t.blockTable row (writeSlice (t.blockTable row) start ids) }

def addRow (blockIds : List Nat) (row : Nat) : BlockTable :=
  appendRow { t with numBlocksPerRow := update t.numBlocksPerRow row 0 } blockIds row

def clearRow (row : Nat) : BlockTable :=
  { t with
    blockTable := update t.blockTable row
      (copyFront (t.blockTable row) (fun _ => 0) (t.numBlocksPerRow row))
    numBlocksPerRow := update t.numBlocksPerRow row 0 }

def moveRow (src tgt : Nat) : BlockTable :=
  { t with
    blockTable := update t.blockTable tgt
      (copyFront (t.blockTable tgt) (t.blockTable src) (t.numBlocksPerRow src))
    numBlocksPerRow := copyRow t.numBlocksPerRow src tgt }

def swapRow (src tgt : Nat) : BlockTable :=
  { t with
    blockTable := swapRows t.blockTable src tgt
    numBlocksPerRow := swapRows t.numBlocksPerRow src tgt }

end BlockTable

inductive MoveDirectionality where
  | unidirectional
  | swap
  deriving DecidableEq, Repr

structure BatchUpdate (ι ε γ : Type) where
  batchSize : Nat
  removed : List Nat
  added : List (Nat × Request ι ε γ)
  moved : List (Nat × Nat × MoveDirectionality)

/-- `_removed` is sorted when it is read first; it is kept here in ascending order, so that the
lowest index is popped at the head. -/
structure BatchUpdateBuilder (ι ε γ : Type) where
  removed : List Nat
  isRemovedSorted : Bool
  added : List (Nat × Request ι ε γ)
  moved : List (Nat × Nat × MoveDirectionality)

namespace BatchUpdateBuilder

def empty : BatchUpdateBuilder ι ε γ where
  removed := []
  isRemovedSorted := false
  added := []
  moved := []

def ensureRemovedSorted (b : BatchUpdateBuilder ι ε γ) : BatchUpdateBuilder ι ε γ :=
  if b.isRemovedSorted then b
  else { b with removed := b.removed.mergeSort, isRemovedSorted := true }

def removedAppend (b : BatchUpdateBuilder ι ε γ) (index : Nat) :
    Except PyError (BatchUpdateBuilder ι ε γ) :=
  if b.isRemovedSorted then
    .error (.runtimeError "Cannot register new removed request after self.removed has been read.")
  else .ok { b with removed := b.removed ++ [index] }

def popRemoved (b : BatchUpdateBuilder ι ε γ) : Option Nat × BatchUpdateBuilder ι ε γ :=
  if b.removed = [] then (none, b)
  else
    let b := b.ensureRemovedSorted
    (b.removed.head?, { b with removed := b.removed.tail })

end BatchUpdateBuilder

structure Config where
  isPoolingModel : Bool
  maxNumReqs : Nat
  vocabSize : Nat
  /-- For each group the number of kernel blocks in a block. -/
  blocksPerKvBlock : List Nat

structure InputBatch (ι ε γ : Type) where
  config : Config
  reqIds : List (Option ι)
  reqIdToIndex : List (ι × Nat)
  reqOutputTokenIds : List (Option (List Nat))
  specTokenIds : List (List Nat)
  builder : BatchUpdateBuilder ι ε γ
  tokenIds : Nat → Nat → Nat
  isTokenIds : Nat → Nat → Bool
  reqPromptEmbeds : Nat → Option (List ε)
  numTokensNoSpec : Nat → Nat
  numPromptTokens : Nat → Nat
  numComputedTokens : Nat → Nat
  blockTables : List BlockTable
  temperature : Nat → ℚ
  topP : Nat → ℚ
  topK : Nat → Int
  frequencyPenalties : Nat → ℚ
  presencePenalties : Nat → ℚ
  repetitionPenalties : Nat → ℚ
  numAcceptedTokens : Nat → Nat
  requestLoraMapping : Nat → Nat
  generators : Nat → Option γ
  badWordsTokenIds : Nat → Option (List (List Nat))
  /-- Allocated for the first request with a restriction; `true` for the tokens that are masked. -/
  allowedTokenIdsMask : Option (Nat → Nat → Bool)
  logitsProcessingNeedsTokenIds : Nat → Bool
  /-- Ghost: the request at each row. -/
  occupant : Nat → Option (Request ι ε γ)

namespace InputBatch

def init (config : Config) : InputBatch ι ε γ where
  config := config
  reqIds := []
  reqIdToIndex := []
  reqOutputTokenIds := []
  specTokenIds := List.replicate config.maxNumReqs []
  builder := .empty
  tokenIds := fun _ _ => 0
  isTokenIds := fun _ _ => false
  reqPromptEmbeds := fun _ => none
  numTokensNoSpec := fun _ => 0
  numPromptTokens := fun _ => 0
  numComputedTokens := fun _ => 0
  blockTables := config.blocksPerKvBlock.map (fun k =>
    { blocksPerKvBlock := k, blockTable := fun _ _ => 0, numBlocksPerRow := fun _ => 0 })
  -- the memory of the sampling parameters is not initialized
  temperature := fun _ => 0
  topP := fun _ => 0
  topK := fun _ => 0
  frequencyPenalties := fun _ => 0
  presencePenalties := fun _ => 0
  repetitionPenalties := fun _ => 0
  numAcceptedTokens := fun _ => 1
  requestLoraMapping := fun _ => 0
  generators := fun _ => none
  badWordsTokenIds := fun _ => none
  allowedTokenIdsMask := none
  logitsProcessingNeedsTokenIds := fun _ => false
  occupant := fun _ => none

variable [DecidableEq ι]

variable (s : InputBatch ι ε γ)

def numReqs : Nat := s.reqIdToIndex.length

def setTokens (i : Nat) (r : Request ι ε γ) : InputBatch ι ε γ :=
  let n := r.numPromptTokens
  let tokens := match r.promptTokenIds with
    | some ids => writeSlice (s.tokenIds i) 0 ids
    | none => s.tokenIds i
  { s with
    numPromptTokens := update s.numPromptTokens i n
    tokenIds := update s.tokenIds i (writeSlice tokens n r.outputTokenIds)
    isTokenIds := update s.isTokenIds i
      (writeSlice (writeSlice (s.isTokenIds i) 0 r.isTokenIds) n
        (List.replicate r.outputTokenIds.length true))
    reqPromptEmbeds := match r.promptEmbeds with
      | some embeds => update s.reqPromptEmbeds i (some embeds)
      | none => s.reqPromptEmbeds
    numTokensNoSpec := update s.numTokensNoSpec i r.numTokens
    numComputedTokens := update s.numComputedTokens i r.numComputedTokens
    blockTables := s.blockTables.mapIdx (fun g t => t.addRow ((r.blockIds[g]?).getD []) i) }

def setSampling (i : Nat) (generator : Option γ) (p : SamplingParams) : InputBatch ι ε γ :=
  { s with
    temperature := update s.temperature i (if p.greedy then 0 else p.temperature)
    topP := update s.topP i p.topP
    topK := update s.topK i
      (if 0 < p.topK ∧ p.topK < s.config.vocabSize then p.topK else s.config.vocabSize)
    frequencyPenalties := update s.frequencyPenalties i p.frequencyPenalty
    presencePenalties := update s.presencePenalties i p.presencePenalty
    repetitionPenalties := update s.repetitionPenalties i p.repetitionPenalty
    generators := match generator with
      | some g => update s.generators i (some g)
      | none => s.generators
    allowedTokenIdsMask := if p.allowedTokenIds = [] then s.allowedTokenIdsMask
      else some (update (s.allowedTokenIdsMask.getD (fun _ _ => false)) i
        (fun t => decide (t ∉ p.allowedTokenIds)))
    badWordsTokenIds := if p.badWordsTokenIds = [] then s.badWordsTokenIds
      else update s.badWordsTokenIds i (some p.badWordsTokenIds) }

def setRow (i : Nat) (r : Request ι ε γ) : InputBatch ι ε γ :=
  let s := s.setTokens i r
  let s := match r.params with
    | .sampling p => s.setSampling i r.generator p
    | .pooling requiresTokenIds => { s with
        logitsProcessingNeedsTokenIds :=
          update s.logitsProcessingNeedsTokenIds i requiresTokenIds }
  { s with
    numAcceptedTokens := update s.numAcceptedTokens i 1
    requestLoraMapping := update s.requestLoraMapping i (r.loraIntId.getD 0) }

def registerAddRequest (r : Request ι ε γ) : Except PyError (Nat × InputBatch ι ε γ) := do
  let (popped, builder) := s.builder.popRemoved
  let index := popped.getD s.numReqs
  pyAssert (index < s.config.maxNumReqs) ""
  let builder := match r.params with
    | .sampling _ => { builder with added := builder.added ++ [(index, r)] }
    | .pooling _ => builder
  return (index, { s with builder := builder })

def place (index : Nat) (r : Request ι ε γ) : InputBatch ι ε γ :=
  let s := if index = s.reqIds.length then { s with
      reqIds := s.reqIds ++ [some r.reqId]
      reqOutputTokenIds := s.reqOutputTokenIds ++ [some r.outputTokenIds]
      specTokenIds := s.specTokenIds ++ [[]] }
    else { s with
      reqIds := s.reqIds.set index (some r.reqId)
      reqOutputTokenIds := s.reqOutputTokenIds.set index (some r.outputTokenIds)
      specTokenIds := s.specTokenIds.set index [] }
  { s with
    reqIdToIndex := set s.reqIdToIndex r.reqId index
    occupant := update s.occupant index (some r) }

def addRequest (r : Request ι ε γ) : Except PyError (InputBatch ι ε γ) := do
  let (index, s) ← s.registerAddRequest r
  return (s.place index r).setRow index r

/-- What `remove_request` clears in the row. -/
def clearRow (s : InputBatch ι ε γ) (i : Nat) : InputBatch ι ε γ :=
  let s := { s with
    blockTables := s.blockTables.map (fun t => t.clearRow i)
    requestLoraMapping := update s.requestLoraMapping i 0 }
  if s.config.isPoolingModel then s
  else { s with
    generators := update s.generators i none
    allowedTokenIdsMask := s.allowedTokenIdsMask.map (fun m =>
      update m i (fun _ => false))
    badWordsTokenIds := update s.badWordsTokenIds i none }

def forget (reqId : ι) (index : Nat) : InputBatch ι ε γ :=
  { s with
    reqIdToIndex := erase s.reqIdToIndex reqId
    reqIds := s.reqIds.set index none
    reqOutputTokenIds := s.reqOutputTokenIds.set index none
    specTokenIds := s.specTokenIds.set index []
    occupant := update s.occupant index none }

def removeRequest (reqId : ι) : Except PyError (InputBatch ι ε γ) :=
  match get? s.reqIdToIndex reqId with
  | none => .ok s
  | some index => do
    let builder ← s.builder.removedAppend index
    return (forget { s with builder := builder } reqId index).clearRow index

def activeTokenCount (i : Nat) : Nat :=
  s.numTokensNoSpec i + ((s.specTokenIds[i]?).getD []).length

/-- `f[i1, : n]` and `f[i2, : n]` are exchanged. -/
def swapFront {α : Type} (f : Nat → Nat → α) (i1 i2 n : Nat) : Nat → Nat → α := fun k p =>
  if p < n then f (Equiv.swap i1 i2 k) p else f k p

def swapList {α : Type} (l : List α) (i1 i2 : Nat) (default : α) : List α :=
  (l.set i1 ((l[i2]?).getD default)).set i2 ((l[i1]?).getD default)

def swapColumns (i1 i2 : Nat) : InputBatch ι ε γ :=
  let n := max (s.activeTokenCount i1) (s.activeTokenCount i2)
  let s : InputBatch ι ε γ := { s with
    reqOutputTokenIds := swapList s.reqOutputTokenIds i1 i2 none
    specTokenIds := swapList s.specTokenIds i1 i2 []
    numTokensNoSpec := swapRows s.numTokensNoSpec i1 i2
    numPromptTokens := swapRows s.numPromptTokens i1 i2
    numComputedTokens := swapRows s.numComputedTokens i1 i2
    tokenIds := swapFront s.tokenIds i1 i2 n
    isTokenIds := swapFront s.isTokenIds i1 i2 n
    reqPromptEmbeds := swapRows s.reqPromptEmbeds i1 i2
    blockTables := s.blockTables.map (fun t => t.swapRow i1 i2)
    requestLoraMapping := swapRows s.requestLoraMapping i1 i2 }
  if s.config.isPoolingModel then s
  else { s with
    builder := { s.builder with moved := s.builder.moved ++ [(i1, i2, .swap)] }
    temperature := swapRows s.temperature i1 i2
    topP := swapRows s.topP i1 i2
    topK := swapRows s.topK i1 i2
    frequencyPenalties := swapRows s.frequencyPenalties i1 i2
    presencePenalties := swapRows s.presencePenalties i1 i2
    repetitionPenalties := swapRows s.repetitionPenalties i1 i2
    numAcceptedTokens := swapRows s.numAcceptedTokens i1 i2
    generators := swapRows s.generators i1 i2
    badWordsTokenIds := swapRows s.badWordsTokenIds i1 i2
    -- the rows of the tensor are views: the second assignment reads the row just written
    allowedTokenIdsMask := s.allowedTokenIdsMask.map (fun m => copyRow (copyRow m i2 i1) i1 i2) }

def exchange (a b : ι) (x y i1 i2 : Nat) : InputBatch ι ε γ :=
  { s with
    reqIds := swapList s.reqIds i1 i2 none
    reqIdToIndex := set (set s.reqIdToIndex a y) b x
    occupant := swapRows s.occupant i1 i2 }

def swapStates (i1 i2 : Nat) : Except PyError (InputBatch ι ε γ) :=
  match s.reqIds[i1]?, s.reqIds[i2]? with
  | some (some a), some (some b) =>
    match get? s.reqIdToIndex a, get? s.reqIdToIndex b with
    | some x, some y => .ok ((s.exchange a b x y i1 i2).swapColumns i1 i2)
    | _, _ => .error .keyError
  | some _, some _ => .error (.assertionError "")
  | _, _ => .error .indexError

def moveColumns (last dst : Nat) : InputBatch ι ε γ :=
  let n := s.activeTokenCount last
  let s : InputBatch ι ε γ := { s with
    reqOutputTokenIds := (s.reqOutputTokenIds.set dst ((s.reqOutputTokenIds[last]?).getD none)).set
      last none
    specTokenIds := (swapList s.specTokenIds last dst []).set last []
    tokenIds := update s.tokenIds dst (copyFront (s.tokenIds dst) (s.tokenIds last) n)
    isTokenIds := update s.isTokenIds dst
      (copyFront (s.isTokenIds dst) (s.isTokenIds last) n)
    reqPromptEmbeds := moveEntry s.reqPromptEmbeds last dst
    numTokensNoSpec := copyRow s.numTokensNoSpec last dst
    numPromptTokens := copyRow s.numPromptTokens last dst
    numComputedTokens := copyRow s.numComputedTokens last dst
    blockTables := s.blockTables.map (fun t => t.moveRow last dst)
    requestLoraMapping := copyRow s.requestLoraMapping last dst }
  if s.config.isPoolingModel then s
  else { s with
    builder := { s.builder with moved := s.builder.moved ++ [(last, dst, .unidirectional)] }
    temperature := copyRow s.temperature last dst
    topP := copyRow s.topP last dst
    topK := copyRow s.topK last dst
    frequencyPenalties := copyRow s.frequencyPenalties last dst
    presencePenalties := copyRow s.presencePenalties last dst
    repetitionPenalties := copyRow s.repetitionPenalties last dst
    numAcceptedTokens := copyRow s.numAcceptedTokens last dst
    generators := moveEntry s.generators last dst
    allowedTokenIdsMask := s.allowedTokenIdsMask.map (fun m => copyRow m last dst)
    badWordsTokenIds := moveEntry s.badWordsTokenIds last dst }

/-- `while last_req_index in empty_req_indices: last_req_index -= 1`. -/
def skipEmpty (removed : List Nat) : Nat → Nat
  | 0 => 0
  | last + 1 => if last + 1 ∈ removed then skipEmpty removed last else last + 1

def relocate (reqId : ι) (last dst : Nat) : InputBatch ι ε γ :=
  { s with
    reqIds := (s.reqIds.set dst (some reqId)).set last none
    reqIdToIndex := set s.reqIdToIndex reqId dst
    occupant := update (copyRow s.occupant last dst) last none }

def moveRequest (last dst : Nat) : Except PyError (InputBatch ι ε γ) :=
  match s.reqIds[last]? with
  | some (some reqId) => .ok ((s.relocate reqId last dst).moveColumns last dst)
  | some none => .error (.assertionError "")
  | none => .error .indexError

def condenseLoop (s : InputBatch ι ε γ) : Nat → List Nat → Except PyError (InputBatch ι ε γ)
  | _, [] => .ok s
  | last, dst :: removed =>
    let last := skipEmpty (dst :: removed) last
    if last ≤ dst then .ok s
    else do
      let s ← moveRequest { s with builder := { s.builder with removed := removed } } last dst
      condenseLoop s (last - 1) removed

def trim (n : Nat) : InputBatch ι ε γ :=
  { s with
    reqIds := s.reqIds.take n
    reqOutputTokenIds := s.reqOutputTokenIds.take n
    specTokenIds := s.specTokenIds.take n }

def condense : Except PyError (InputBatch ι ε γ) :=
  let s := { s with builder := s.builder.ensureRemovedSorted }
  if s.builder.removed = [] then .ok s
  else if s.numReqs = 0 then
    .ok { s with reqIds := [], reqOutputTokenIds := [], specTokenIds := [] }
  else do
    let s' ← s.condenseLoop (s.numReqs + s.builder.removed.length - 1) s.builder.removed
    return s'.trim s.numReqs

def getAndReset : Option (BatchUpdate ι ε γ) :=
  if s.builder.removed.isEmpty ∧ s.builder.moved.isEmpty ∧ s.builder.added.isEmpty then none
  else some {
    batchSize := s.numReqs
    removed := s.builder.removed.reverse
    added := s.builder.added
    moved := s.builder.moved }

def refreshMetadata : Option (BatchUpdate ι ε γ) × InputBatch ι ε γ :=
  (if s.config.isPoolingModel then none else s.getAndReset, { s with builder := .empty })

/-- The calls of a step: removals, additions, and then `condense` with exchanges of rows before
and after it. -/
structure Step (ι ε γ : Type) where
  removed : List ι
  added : List (Request ι ε γ)
  swaps : List (Nat × Nat)
  reordered : List (Nat × Nat)

/-- The rows after the calls of a step, before `refresh_metadata`. -/
def arrange (t : Step ι ε γ) : Except PyError (InputBatch ι ε γ) := do
  let s ← Trace.run removeRequest s t.removed
  let s ← Trace.run addRequest s t.added
  let s ← Trace.run (fun s p => s.swapStates p.1 p.2) s t.swaps
  let s ← s.condense
  Trace.run (fun s p => s.swapStates p.1 p.2) s t.reordered

def step (t : Step ι ε γ) : Except PyError (Option (BatchUpdate ι ε γ) × InputBatch ι ε γ) := do
  let s ← s.arrange t
  return s.refreshMetadata

end InputBatch
end TailBlend.Batch
