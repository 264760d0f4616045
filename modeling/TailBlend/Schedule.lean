import TailBlend.WaitingPhase

/-! `Scheduler.schedule`: the two passes, the output, and the counters that move with it. -/
namespace TailBlend
open OrderedDict
variable {α ε κ : Type} [LinearOrder α]

structure NewRequestData (α : Type) where
  reqId : α
  promptTokenIds : Option (List Int)
  promptEmbeds : Option (List EmbedRow)
  mmFeatures : List MmFeature
  samplingParams : Option SamplingParams
  pooling : Bool
  blockIds : List (List Nat)
  numComputedTokens : Int
  loraRequest : Option LoRARequest
  prefillTokenIds : Option (List Int)

structure CachedRow (α : Type) where
  reqId : α
  resumed : Bool
  /-- Sent with pipeline parallelism only. -/
  newTokenIds : Option (List Int)
  /-- Sent to a worker that has not run the request in the previous step. -/
  allTokenIds : Option (List Int)
  newBlockIds : Option (List (List Nat))
  numComputedTokens : Int
  numOutputTokens : Int

structure SchedulerOutput (α : Type) where
  scheduledNewReqs : List (NewRequestData α)
  scheduledCachedReqs : List (CachedRow α)
  numScheduledTokens : List (α × Int)
  scheduledSpecDecodeTokens : List (α × List Int)
  scheduledEncoderInputs : List (α × List Nat)
  numCommonPrefixBlocks : List Nat
  preemptedReqIds : List α
  finishedReqIds : List α
  freeEncoderMmHashes : List String
  /-- The encoder outputs that are loaded through the connector. -/
  ecConnectorMetadata : List String
  newBlockIdsToZero : Option (List Nat)
  features : StepFeatures
  hasStructuredOutputRequests : Bool
  pendingStructuredOutputTokens : Bool

namespace Scheduler

def newBlocksOf (blocks : List (α × List (List Nat))) (r : α) : Except PyError (List (List Nat)) :=
  match get? blocks r with
  | some b => .ok b
  | none => .error .keyError

variable (c : SchedulerConfig)

def newRequestData (s : Scheduler α ε)
    (blocks : List (α × List (List Nat))) (r : α) : Except PyError (NewRequestData α) := do
  let req := s.objs r
  let ids ← newBlocksOf blocks r
  return {
    reqId := r
    promptTokenIds := req.promptTokenIds
    promptEmbeds := req.promptEmbeds
    mmFeatures := req.mmFeatures
    samplingParams := req.samplingParams
    pooling := req.pooling
    blockIds := ids
    numComputedTokens := req.numComputedTokens
    loraRequest := req.loraRequest
    prefillTokenIds := if c.useV2ModelRunner then some req.allTokenIds else none }

def cachedRow (s : Scheduler α ε) (blocks : List (α × List (List Nat)))
    (numScheduled : List (α × Int)) (spec : List (α × List Int)) (resumed : Bool) (r : α) :
    Except PyError (CachedRow α) := do
  let req := s.objs r
  let inPrevStep := r ∈ s.prevStepScheduledReqIds
  pyAssert (resumed → ¬inPrevStep) ""
  let ids ← newBlocksOf blocks r
  let n := (get? numScheduled r).getD 0 - ((get? spec r).getD []).length
  return {
    reqId := r
    resumed := resumed
    newTokenIds := if c.usePp ∧ c.asyncScheduling = false then
      some (pySlice req.allTokenIds req.numComputedTokens (req.numComputedTokens + n)) else none
    allTokenIds := if inPrevStep then none else some req.allTokenIds
    newBlockIds := if ids.all List.isEmpty then none else some ids
    numComputedTokens := req.numComputedTokens
    numOutputTokens := req.numOutputTokens + req.numOutputPlaceholders }

/-- The request after it was scheduled for `n` tokens with `numSpec` drafts: its computed
tokens advance, and with asynchronous scheduling placeholders stand for the coming output. -/
def advance (n : Int) (numSpec : Nat) (req : Request α) : Request α :=
  let req := { req with numComputedTokens := req.numComputedTokens + n }
  let req := { req with
    isPrefillChunk := req.numComputedTokens < req.numTokens + req.numOutputPlaceholders }
  if c.asyncScheduling ∧ req.isPrefillChunk = false then
    { req with
      numOutputPlaceholders := req.numOutputPlaceholders + 1 + numSpec
      specTokenIds := List.replicate c.numSpecTokens (-1) }
  else req

/-- The positions that a step computes for `r`, each with the block its group keeps it in. -/
def computedSlots (s : Scheduler α ε) (r : α) (n : Int) : List (Nat × Int) :=
  s.kv.managers.flatMap (fun m =>
    (List.range n.toNat).filterMap (fun i =>
      let p := (s.objs r).numComputedTokens + i
      ((m.blocks r)[(p / m.spec.blockSize).toNat]?).map (fun b => (b, p))))

/-- One round of `_update_after_schedule`. The step that is issued writes the slots of `r`:
`written` of the pool records it and nothing of the scheduler reads it. -/
def afterScheduled (spec : List (α × List Int)) (s : Scheduler α ε)
    (r : α) (n : Int) : Scheduler α ε :=
  let slots := s.computedSlots r n
  let s := s.modify r (advance c n ((get? spec r).getD []).length)
  { s with kv := { s.kv with pool := { s.kv.pool with written := slots ++ s.kv.pool.written } } }

def updateAfterSchedule (c : SchedulerConfig) (spec : List (α × List Int)) :
    Scheduler α ε → List (α × Int) → Except PyError (Scheduler α ε)
  | s, [] => .ok { s with finishedReqIds := [] }
  | s, (r, n) :: rest =>
    if r ∈ s.requests then updateAfterSchedule c spec (s.afterScheduled c spec r n) rest
    else .error .keyError

def structuredIds (before after : Scheduler α ε) (numScheduled : List (α × Int))
    (needPlaceholder : Bool) : Bool :=
  numScheduled.any (fun x => (after.objs x.1).useStructuredOutput ∧
    (after.objs x.1).isPrefillChunk = false ∧
    (needPlaceholder → (before.objs x.1).numOutputPlaceholders > 0))

/-- The variables of `schedule()` after both passes. -/
structure Plan (α ε : Type) where
  sched : Scheduler α ε
  tokenBudget : Int
  scheduledRunningReqs : List α
  scheduledNewReqs : List α
  scheduledResumedReqs : List α
  preemptedReqs : List α
  reqToNewBlocks : List (α × List (List Nat))
  numScheduledTokens : List (α × Int)
  scheduledSpecDecodeTokens : List (α × List Int)
  scheduledEncoderInputs : List (α × List Nat)
  externalLoads : List String

def runningLoras (s : Scheduler α ε) (scheduled : List α) : List Nat :=
  if c.maxLoras.isSome then
    (scheduled.filterMap (fun r => ((s.objs r).loraRequest.map LoRARequest.loraIntId).filter
      (fun i => 0 < i))).dedup
  else []

def waitingPass (e : Core α ε) (inp : ScheduleInput α) (defer : Scheduler α ε → α → Bool)
    (st : RunningPhase α ε) : Except PyError (Plan α ε) := do
  let loras := runningLoras e.toSchedulerConfig st.sched st.scheduledRunningReqs
  pyAssert (∀ limit ∈ e.maxLoras, loras.length ≤ limit) ""
  let base : WaitingPhase α ε := {
    sched := st.sched
    tokenBudget := st.tokenBudget
    encoderComputeBudget := st.encoderComputeBudget
    stepSkippedWaiting := []
    scheduledNewReqs := []
    scheduledResumedReqs := []
    scheduledLoras := loras
    reqToNewBlocks := st.reqToNewBlocks
    numScheduledTokens := st.numScheduledTokens
    scheduledEncoderInputs := st.scheduledEncoderInputs
    externalLoads := st.externalLoads }
  let w ← (if st.preemptedReqs = [] ∧ st.sched.pauseState = .unpaused then
      base.loop e inp defer
    else .ok base)
  return {
    sched := w.requeue e
    tokenBudget := w.tokenBudget
    scheduledRunningReqs := st.scheduledRunningReqs
    scheduledNewReqs := w.scheduledNewReqs
    scheduledResumedReqs := w.scheduledResumedReqs
    preemptedReqs := st.preemptedReqs
    reqToNewBlocks := w.reqToNewBlocks
    numScheduledTokens := w.numScheduledTokens
    scheduledSpecDecodeTokens := st.scheduledSpecDecodeTokens
    scheduledEncoderInputs := w.scheduledEncoderInputs
    externalLoads := w.externalLoads }

def plan (e : Core α ε) (inp : ScheduleInput α) (admitted : Option (List α))
    (victim : Scheduler α ε → Nat → α → Option α) (defer : Scheduler α ε → α → Bool)
    (s : Scheduler α ε) : Except PyError (Plan α ε) := do
  let s := { s with kv := s.kv.newStepStarts }
  let st ← (RunningPhase.init e.toSchedulerConfig s).loop e admitted victim
  waitingPass e inp defer st

def checkPlan (p : Plan α ε) : Except PyError Unit := do
  pyAssert ((p.numScheduledTokens.map Prod.snd).sum ≤ c.maxNumScheduledTokens) ""
  pyAssert (p.tokenBudget ≥ 0) ""
  pyAssert (p.sched.running.length ≤ c.maxNumRunningReqs) ""
  pyAssert (p.scheduledNewReqs.length + p.scheduledResumedReqs.length +
    p.scheduledRunningReqs.length ≤ p.sched.running.length) ""

def issue (e : Core α ε) (features : Scheduler α ε → List (α × Int) → StepFeatures)
    (p : Plan α ε) : Except PyError (Scheduler α ε × SchedulerOutput α) := do
  let c := e.toSchedulerConfig
  checkPlan c p
  let s := p.sched
  let common := match s.running.head? with
    | some r => s.kv.getNumCommonPrefixBlocks r
    | none => s.kv.managers.map (fun _ => 0)
  let newIds := if c.useV2ModelRunner then p.scheduledNewReqs ++ p.scheduledResumedReqs
    else p.scheduledNewReqs
  let resumedIds := if c.useV2ModelRunner then [] else p.scheduledResumedReqs
  let newData ← newIds.mapM (s.newRequestData c p.reqToNewBlocks)
  let row := s.cachedRow c p.reqToNewBlocks p.numScheduledTokens p.scheduledSpecDecodeTokens
  let runningRows ← p.scheduledRunningReqs.mapM (row false)
  let resumedRows ← resumedIds.mapM (row true)
  let (kv, ids) := if c.needsKvCacheZeroing then s.kv.takeNewBlockIds else (s.kv, [])
  let (encoder, freed) := e.enc.getFreedMmHashes s.encoder
  let s := { s with
    kv := kv
    encoder := encoder
    prevStepScheduledReqIds := p.numScheduledTokens.map Prod.fst }
  let s' ← s.updateAfterSchedule c p.scheduledSpecDecodeTokens p.numScheduledTokens
  return (s', {
    scheduledNewReqs := newData
    scheduledCachedReqs := runningRows ++ resumedRows
    numScheduledTokens := p.numScheduledTokens
    scheduledSpecDecodeTokens := p.scheduledSpecDecodeTokens
    scheduledEncoderInputs := p.scheduledEncoderInputs
    numCommonPrefixBlocks := common
    preemptedReqIds := p.preemptedReqs
    finishedReqIds := s.finishedReqIds
    freeEncoderMmHashes := freed
    ecConnectorMetadata := p.externalLoads
    newBlockIdsToZero := if ids = [] then none else some ids
    features := features s p.numScheduledTokens
    hasStructuredOutputRequests := structuredIds s s' p.numScheduledTokens false
    pendingStructuredOutputTokens :=
      c.asyncScheduling ∧ structuredIds s s' p.numScheduledTokens true })

def schedule (e : Env α ε κ) (inp : ScheduleInput α) (s : Scheduler α ε) (k : κ) :
    Except PyError (Scheduler α ε × κ × SchedulerOutput α) := do
  let budget := (RunningPhase.init e.toSchedulerConfig s).tokenBudget
  let (admitted, k) := e.hooks.planAdmitted k { s with kv := s.kv.newStepStarts } inp.now budget
  let p ← plan e.toCore inp admitted
    (fun s n r => e.hooks.selectVictim k s (inp.clock r n) r)
    (fun s r => e.hooks.shouldDefer k s (inp.clock r 0) r) s
  let (s, out) ← issue e.toCore (fun s => e.hooks.stepFeatures k s inp.now) p
  return (s, k, out)

end Scheduler
end TailBlend
