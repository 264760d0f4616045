import TailBlend.Manager

/-! Requests: statuses, tokens, block hashes, the stop check and streaming sessions. -/
namespace TailBlend

inductive RequestStatus where
  | waiting
  | waitingForStructuredOutputGrammar
  | waitingForRemoteKvs
  | waitingForStreamingReq
  | running
  | preempted
  | finishedStopped
  | finishedLengthCapped
  | finishedAborted
  | finishedIgnored
  | finishedError
  | finishedRepetition
  deriving DecidableEq, Repr

namespace RequestStatus

/-- Every status after `PREEMPTED`. -/
def isFinished : RequestStatus → Bool
  | waiting | waitingForStructuredOutputGrammar | waitingForRemoteKvs
  | waitingForStreamingReq | running | preempted => false
  | finishedStopped | finishedLengthCapped | finishedAborted | finishedIgnored
  | finishedError | finishedRepetition => true

def isBlockedWaiting : RequestStatus → Bool
  | waitingForStructuredOutputGrammar | waitingForRemoteKvs | waitingForStreamingReq => true
  | _ => false

theorem of_isBlockedWaiting {status : RequestStatus} (h : status.isBlockedWaiting = true) :
    status.isFinished = false ∧ status ≠ running := by
  cases status <;> simp_all [isBlockedWaiting, isFinished]

end RequestStatus

inductive FinishReason where
  | stop | length | abort | error | repetition
  deriving DecidableEq, Repr

/-- `_FINISHED_REASON_MAP`. -/
def RequestStatus.getFinishedReason : RequestStatus → Option FinishReason
  | finishedStopped => some .stop
  | finishedLengthCapped => some .length
  | finishedAborted => some .abort
  | finishedIgnored => some .length
  | finishedError => some .error
  | waitingForStreamingReq => some .stop
  | finishedRepetition => some .repetition
  | _ => none

structure RepetitionDetectionParams where
  maxPatternSize : Int
  minPatternSize : Int
  minCount : Int
  deriving DecidableEq, Repr

structure SamplingParams where
  minTokens : Nat
  eosTokenId : Option Int
  stopTokenIds : List Int
  allStopTokenIds : List Int
  repetitionDetection : Option RepetitionDetectionParams
  deriving DecidableEq, Repr

/-- A multimodal input at its place in the prompt, with the `PlaceholderRange` fields. -/
structure MmFeature where
  identifier : String
  offset : Nat
  length : Nat
  /-- Which positions of the range are embeddings; all of them for `none`. -/
  isEmbed : Option (List Bool)
  isEmbed_length : ∀ mask ∈ isEmbed, mask.length = length
  deriving DecidableEq

namespace MmFeature

def embedsBefore (f : MmFeature) (n : Nat) : Nat :=
  match f.isEmbed with
  | none => n
  | some mask => (mask.take n).count true

def numEmbeds (f : MmFeature) : Nat := f.embedsBefore f.length

def hashes (fs : List MmFeature) (inputs : List Nat) : List String :=
  inputs.filterMap (fun i => (fs[i]?).map identifier)

end MmFeature

structure LoRARequest where
  loraName : String
  loraIntId : Nat
  deriving DecidableEq, Repr

structure StreamingUpdate where
  mmFeatures : List MmFeature
  promptTokenIds : List Int
  arrivalTime : ℚ
  samplingParams : Option SamplingParams
  deriving DecidableEq

/-- Block hashes of one request, each chained to the one before. -/
abbrev HashChain := { hs : List BlockHash // BlockHash.Chained .noneHash hs }

/-- A request; `hashBlockSize` is that of its block hasher, `none` without prefix caching. -/
structure Request (α : Type) where
  requestId : α
  externalReqId : Option α
  priority : Int
  arrivalTime : ℚ
  samplingParams : Option SamplingParams
  pooling : Bool
  loraRequest : Option LoRARequest
  useStructuredOutput : Bool
  status : RequestStatus
  maxTokens : Int
  /-- `none` for a prompt that is given by its embeddings alone. -/
  promptTokenIds : Option (List Int)
  promptEmbeds : Option (List EmbedRow)
  numPromptTokens : Int
  outputTokenIds : List Int
  allTokenIds : List Int
  numOutputPlaceholders : Int
  discardLatestAsyncTokens : Bool
  specTokenIds : List Int
  numComputedTokens : Int
  cacheSalt : Option String
  mmFeatures : List MmFeature
  isPrefillChunk : Bool
  numPreemptions : Nat
  probShort : ℚ
  taperLastTokenTime : ℚ
  /-- `prefill_stats is not None`: no output has been returned yet. -/
  prefillStats : Bool
  blockHashes : HashChain
  hashBlockSize : Option Nat
  skipReadingPrefixCache : Bool
  resumable : Bool
  streamingQueue : Option (List (Option StreamingUpdate))

namespace Request
variable {α : Type} (req : Request α)

def numTokens : Int := req.allTokenIds.length

def numTokensWithSpec : Int := req.allTokenIds.length + req.specTokenIds.length

def numOutputTokens : Int := req.outputTokenIds.length

def hasEncoderInputs : Bool := !req.mmFeatures.isEmpty

def isFinished : Bool := req.status.isFinished

def getNumEncoderEmbeds (inputId : Nat) : Nat :=
  ((req.mmFeatures[inputId]?).map MmFeature.numEmbeds).getD 0

def mmHashes (inputs : List Nat) : List String := MmFeature.hashes req.mmFeatures inputs

/-- `Request.__lt__`; two requests of a scheduler never share their id. -/
def lt [LinearOrder α] (other : Request α) : Bool :=
  if req.priority ≠ other.priority then req.priority < other.priority
  else if req.arrivalTime ≠ other.arrivalTime then req.arrivalTime < other.arrivalTime
  else req.requestId < other.requestId

def toKV : KVRequest α where
  requestId := req.requestId
  numTokens := req.numTokens
  numComputedTokens := req.numComputedTokens
  allTokenIds := req.allTokenIds
  blockHashes := req.blockHashes.1
  skipReadingPrefixCache := req.skipReadingPrefixCache
  chained := req.blockHashes.2

/-! Block hashes. -/

def genMmExtraHashKeys (start stop : Nat) : List MmFeature → Nat → List ExtraKey × Nat
  | [], mmIdx => ([], mmIdx)
  | f :: fs, mmIdx =>
    if stop > f.offset then
      if start ≥ f.offset + f.length then genMmExtraHashKeys start stop fs (mmIdx + 1)
      else if stop ≥ f.offset + f.length then
        let (keys, next) := genMmExtraHashKeys start stop fs (mmIdx + 1)
        (.mm f.identifier ((f.offset : Int) - start) :: keys, next)
      else ([.mm f.identifier ((f.offset : Int) - start)], mmIdx)
    else ([], mmIdx)

/-- `_gen_mm_extra_hash_keys`; the index `-1` stands for the last input. -/
def mmExtraKeys (start stop : Nat) (mmIdx : Int) : List ExtraKey × Int :=
  match req.mmFeatures.getLast? with
  | none => ([], mmIdx)
  | some last =>
    if last.offset + last.length ≤ start then ([], mmIdx)
    else
      let idx := (if mmIdx < 0 then req.mmFeatures.length + mmIdx else mmIdx).toNat
      let (keys, next) := genMmExtraHashKeys start stop (req.mmFeatures.drop idx) idx
      (keys, next)

def loraKeys : List ExtraKey := (req.loraRequest.map (fun l => ExtraKey.text l.loraName)).toList

/-- The salt goes into the first block; an empty one counts as none. -/
def saltKeys (start : Nat) : List ExtraKey :=
  if start = 0 then ((req.cacheSalt.filter (fun salt => salt ≠ "")).map ExtraKey.text).toList else []

def promptEmbedsKeys (start stop : Nat) : List ExtraKey :=
  (req.promptEmbeds.map (fun rows => ExtraKey.digest ((rows.drop start).take (stop - start)))).toList

def extraKeys (start stop : Nat) (mmIdx : Int) : List ExtraKey × Int :=
  let (mmKeys, next) := req.mmExtraKeys start stop mmIdx
  (req.loraKeys ++ mmKeys ++ req.saltKeys start ++ req.promptEmbedsKeys start stop, next)

def hashBlocks (blockSize : Nat) : Nat → Nat → BlockHash → Int → List BlockHash
  | 0, _, _, _ => []
  | n + 1, start, prev, mmIdx =>
    let (keys, next) := req.extraKeys start (start + blockSize) mmIdx
    let h := BlockHash.block prev ((req.allTokenIds.drop start).take blockSize) keys
    h :: hashBlocks blockSize n (start + blockSize) h next

theorem chained_hashBlocks (blockSize n start : Nat) (prev : BlockHash) (mmIdx : Int) :
    BlockHash.Chained prev (req.hashBlocks blockSize n start prev mmIdx) := by
  induction n generalizing start prev mmIdx with
  | zero => trivial
  | succ n ih => exact ⟨⟨_, _, rfl⟩, ih _ _ _⟩

def newBlockHashes (blockSize : Nat) : List BlockHash :=
  let start := req.blockHashes.1.length * blockSize
  req.hashBlocks blockSize ((req.allTokenIds.length - start) / blockSize) start
    (req.blockHashes.1.getLastD .noneHash) (if start > 0 then -1 else 0)

def updateBlockHashes : Request α :=
  match req.hashBlockSize with
  | none => req
  | some blockSize =>
    { req with
      blockHashes := ⟨req.blockHashes.1 ++ req.newBlockHashes blockSize,
        BlockHash.chained_append.mpr ⟨req.blockHashes.2, req.chained_hashBlocks _ _ _ _ _⟩⟩ }

/-! Output tokens. -/

def nextProbShort (lastTokenId : Option Int) : ℚ :=
  if req.samplingParams.any (fun sp => lastTokenId.any (fun last => last ∈ sp.allStopTokenIds)) then 1
  else
    let progress : ℚ := min 1 ((req.outputTokenIds.length : ℚ) / (max 1 req.maxTokens : Int))
    max req.probShort (max progress 0)

def updateProbShort (lastTokenId : Option Int) : Request α :=
  { req with probShort := req.nextProbShort lastTokenId }

def pushTokens (now : ℚ) (tokens : List Int) : Request α :=
  let req := { req with
    outputTokenIds := req.outputTokenIds ++ tokens
    allTokenIds := req.allTokenIds ++ tokens }
  { req.updateProbShort tokens.getLast? with taperLastTokenTime := now }

def appendOutputTokenIds (now : ℚ) (tokens : List Int) : Request α :=
  (req.pushTokens now tokens).updateBlockHashes

def appendOutputTokenId (now : ℚ) (token : Int) : Request α := req.appendOutputTokenIds now [token]

/-- `_has_repeating_pattern` on the reversed tokens. -/
def hasRepeatingPattern (rev : List Int) (patternLen minCount : Nat) : Bool :=
  (List.range patternLen).all (fun n =>
    (List.range (minCount - 1)).all (fun m => rev[patternLen * (m + 1) + n]? == rev[n]?))

def repetitionFrom (rev : List Int) (minCount : Nat) : Nat → Nat → Bool
  | 0, _ => false
  | n + 1, patternLen =>
    if patternLen * minCount > rev.length then false
    else if hasRepeatingPattern rev patternLen minCount then true
    else repetitionFrom rev minCount n (patternLen + 1)

def checkSequenceRepetition (tokens : List Int) (params : RepetitionDetectionParams) : Bool :=
  let minSize := if params.minPatternSize ≤ 0 then 1 else params.minPatternSize
  if params.maxPatternSize ≤ 0 ∨ params.minCount < 2 ∨ minSize > params.maxPatternSize then false
  else repetitionFrom tokens.reverse params.minCount.toNat
    (params.maxPatternSize - minSize + 1).toNat minSize.toNat

def checkStop (maxModelLen : Int) : Except PyError (Option RequestStatus) := do
  pyAssert (req.pooling = false) ""
  match req.samplingParams with
  | none => .error (.assertionError "")
  | some sp =>
    if req.numOutputTokens < sp.minTokens then return none
    else match req.outputTokenIds.getLast? with
      | none => .error .indexError
      | some last =>
        if sp.eosTokenId = some last then return some .finishedStopped
        else if last ∈ sp.stopTokenIds then return some .finishedStopped
        else if req.numTokens ≥ maxModelLen ∨ req.numOutputTokens ≥ req.maxTokens then
          return some .finishedLengthCapped
        else if sp.repetitionDetection.any (checkSequenceRepetition req.outputTokenIds) then
          return some .finishedRepetition
        else return none

/-- `Scheduler._update_request_with_output`: append the tokens up to the first one that
stops the request; the tokens kept and whether it stopped. -/
def updateWithOutput (maxModelLen : Int) (now : ℚ) :
    Request α → List Int → Except PyError (Request α × List Int × Bool)
  | req, [] => .ok (req, [], false)
  | req, token :: tokens => do
    let req := req.appendOutputTokenId now token
    match ← req.checkStop maxModelLen with
    | some status => return ({ req with status := status }, [token], true)
    | none =>
      let (req, kept, stopped) ← updateWithOutput maxModelLen now req tokens
      return (req, token :: kept, stopped)

/-- `_preempt_request` on the request itself. -/
def preempt : Request α :=
  { req with
    status := .preempted
    numComputedTokens := 0
    specTokenIds := []
    numPreemptions := req.numPreemptions + 1 }

/-! Streaming sessions. -/

/-- `StreamingUpdate.from_request`; `none` ends the session. -/
def toStreamingUpdate : Option StreamingUpdate :=
  if req.resumable then
    some ⟨req.mmFeatures, req.promptTokenIds.getD [], req.arrivalTime, req.samplingParams⟩
  else none

/-- `_update_request_as_session` on the request itself, before the new blocks are hashed: the
computed output tokens join the prompt and the next input chunk follows. Prompts of sessions
are given by tokens. -/
def extendSession (update : StreamingUpdate) : Request α :=
  let kept := pySlice req.allTokenIds req.numPromptTokens req.numComputedTokens
  let all := pySlice req.allTokenIds 0 req.numComputedTokens
  let shifted := update.mmFeatures.map (fun f => { f with offset := f.offset + all.length })
  { req with
    outputTokenIds := []
    promptTokenIds := some (req.promptTokenIds.getD [] ++ kept ++ update.promptTokenIds)
    mmFeatures := req.mmFeatures ++ shifted
    allTokenIds := all ++ update.promptTokenIds }

def updateAsSession (update : StreamingUpdate) : Request α :=
  let req := (req.extendSession update).updateBlockHashes
  { req with
    numPromptTokens := (req.promptTokenIds.getD []).length
    arrivalTime := update.arrivalTime
    samplingParams := update.samplingParams
    status := .waiting }

/-! New requests. -/

/-- `sampling_params` with its `max_tokens`, or `pooling_params`. -/
inductive TaskParams where
  | sampling (params : SamplingParams) (maxTokens : Int) (structured : Bool)
  | pooling

/-- `prompt_token_ids`, `prompt_embeds`, or both for the same positions. -/
inductive Prompt where
  | tokens (ids : List Int)
  | embeds (rows : List EmbedRow)
  | mixed (ids : List Int) (rows : List EmbedRow) (h : rows.length = ids.length)

namespace Prompt

def tokenIds : Prompt → Option (List Int)
  | tokens ids | mixed ids _ _ => some ids
  | embeds _ => none

def rows : Prompt → Option (List EmbedRow)
  | tokens _ => none
  | embeds rows | mixed _ rows _ => some rows

/-- `length_from_prompt_token_ids_or_embeds`. -/
def length : Prompt → Nat
  | tokens ids | mixed ids _ _ => ids.length
  | embeds rows => rows.length

end Prompt

structure Args (α : Type) where
  requestId : α
  externalReqId : Option α
  priority : Int
  arrivalTime : ℚ
  task : TaskParams
  loraRequest : Option LoRARequest
  prompt : Prompt
  cacheSalt : Option String
  mmFeatures : List MmFeature
  hashBlockSize : Option Nat
  skipReadingPrefixCache : Bool
  resumable : Bool

/-- A new request before its blocks are hashed. -/
def unhashed (args : Args α) : Request α :=
  let (samplingParams, maxTokens, structured) := match args.task with
    | .sampling params maxTokens structured => (some params, maxTokens, structured)
    | .pooling => (none, 1, false)
  {
    requestId := args.requestId
    externalReqId := args.externalReqId
    priority := args.priority
    arrivalTime := args.arrivalTime
    samplingParams := samplingParams
    pooling := samplingParams.isNone
    loraRequest := args.loraRequest
    useStructuredOutput := structured
    status := if structured then .waitingForStructuredOutputGrammar else .waiting
    maxTokens := maxTokens
    promptTokenIds := args.prompt.tokenIds
    promptEmbeds := args.prompt.rows
    numPromptTokens := args.prompt.length
    outputTokenIds := []
    allTokenIds := args.prompt.tokenIds.getD (List.replicate args.prompt.length 0)
    numOutputPlaceholders := 0
    discardLatestAsyncTokens := false
    specTokenIds := []
    numComputedTokens := 0
    cacheSalt := args.cacheSalt
    mmFeatures := args.mmFeatures
    isPrefillChunk := false
    numPreemptions := 0
    probShort := 0
    taperLastTokenTime := args.arrivalTime
    prefillStats := true
    blockHashes := ⟨[], trivial⟩
    hashBlockSize := args.hashBlockSize
    skipReadingPrefixCache := args.skipReadingPrefixCache
    resumable := args.resumable
    streamingQueue := none }

def new (args : Args α) : Request α := (unhashed args).updateBlockHashes

end Request
end TailBlend
