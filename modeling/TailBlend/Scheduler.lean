import TailBlend.Lib.OrderedDict
import TailBlend.KVCacheManager
import TailBlend.RequestQueue

/-! The state of the scheduler, its configuration, and what it asks of the encoder cache,
the KV connector and the fork's controllers. -/
namespace TailBlend

-- by its own name, so that the definitions of all modules refer to one proof
instance lawfulBEq_of_linearOrder {α : Type} [LinearOrder α] : LawfulBEq α where
  eq_of_beq := of_decide_eq_true
  rfl := decide_eq_true rfl

inductive PauseState where
  | unpaused | pausedNew | pausedAll
  deriving DecidableEq, Repr

structure SchedulerConfig where
  policy : SchedulingPolicy
  maxNumRunningReqs : Nat
  maxNumScheduledTokens : Int
  maxModelLen : Int
  longPrefillTokenThreshold : Int
  enableChunkedPrefill : Bool
  numSpecTokens : Nat
  numLookaheadTokens : Nat
  useEagle : Bool
  blockSize : Nat
  isEncoderDecoder : Bool
  maxNumEncoderInputTokens : Int
  /-- `lora_config.max_loras`. -/
  maxLoras : Option Nat
  schedulerReserveFullIsl : Bool
  needMambaBlockAlignedSplit : Bool
  needsKvCacheZeroing : Bool
  usePp : Bool
  useV2ModelRunner : Bool
  asyncScheduling : Bool
  recomputeKvLoadFailures : Bool

/-- The scheduler. A request object is named by its id: `objs` is the object, `requests`
the ids that `self.requests` holds, and the queues hold ids. -/
structure Scheduler (α ε : Type) where
  kv : KVCacheManager α
  encoder : ε
  objs : α → Request α
  requests : List α
  running : List α
  waiting : List α
  skippedWaiting : List α
  pauseState : PauseState
  finishedReqIds : List α
  prevStepScheduledReqIds : List α
  numWaitingForStreamingInput : Int
  finishedRecvingKvReqIds : List α
  failedRecvingKvReqIds : List α

structure EncoderPlan where
  inputs : List Nat
  numNewTokens : Int
  computeBudget : Int
  externalInputs : List Nat

/-- The encoder cache as the scheduler calls it. -/
structure EncoderOps (α ε : Type) where
  /-- `_try_schedule_encoder_inputs(request, num_computed, num_new, budget, shift)`. -/
  trySchedule : ε → Request α → Int → Int → Int → Int → Except PyError (ε × EncoderPlan)
  allocate : ε → Request α → Nat → Except PyError ε
  free : ε → Request α → ε
  /-- `_free_encoder_inputs`. -/
  freeInputs : ε → Request α → ε
  getFreedMmHashes : ε → ε × List String

def EncoderOps.allocateAll {α ε : Type} (ops : EncoderOps α ε) (enc : ε) (req : Request α)
    (inputs : List Nat) : Except PyError ε :=
  inputs.foldlM (fun enc i => ops.allocate enc req i) enc

structure StepFeatures where
  stepStart : ℚ
  decodeWidth : Int
  contextTokens : Int
  prefillTokens : Int
  predictedStepMs : ℚ
  deriving DecidableEq

def StepFeatures.zero : StepFeatures := ⟨0, 0, 0, 0, 0⟩

/-- The places where the fork's controllers, with state `κ`, are consulted or told. -/
structure Hooks (α ε κ : Type) where
  /-- `_get_taper_plus_admitted_running_req_ids(token_budget)` at a clock reading. -/
  planAdmitted : κ → Scheduler α ε → ℚ → Int → Option (List α) × κ
  /-- Both `should_defer_waiting_request` of the waiting pass. -/
  shouldDefer : κ → Scheduler α ε → ℚ → α → Bool
  /-- `select_preemption_victim(request)`. -/
  selectVictim : κ → Scheduler α ε → ℚ → α → Option α
  stepFeatures : κ → Scheduler α ε → ℚ → List (α × Int) → StepFeatures
  observeStep : κ → ℚ → StepFeatures → κ
  prepareRequest : κ → Request α → κ
  observeOutput : κ → Request α → List Int → κ
  observeFinished : κ → Request α → ℚ → κ

/-- A scheduler configuration with its encoder cache. -/
structure Core (α ε : Type) extends SchedulerConfig where
  enc : EncoderOps α ε

structure Env (α ε κ : Type) extends Core α ε where
  hooks : Hooks α ε κ

/-- What `schedule()` learns from outside: clock readings, finished grammars, and the
answers of the KV connector, `(num_external_tokens, load_async)`, when there is one. -/
structure ScheduleInput (α : Type) where
  now : ℚ
  /-- The reading taken while a request is looked at after so many preemptions. -/
  clock : α → Nat → ℚ
  grammarReady : α → Bool
  connector : Option (α → Nat → Option (Nat × Bool))

namespace Scheduler
variable {α ε : Type} [LinearOrder α]

def lt (s : Scheduler α ε) (a b : α) : Bool := (s.objs a).lt (s.objs b)

def modify (s : Scheduler α ε) (r : α) (f : Request α → Request α) : Scheduler α ε :=
  { s with objs := fun x => if x = r then f (s.objs x) else s.objs x }

def init (kv : KVCacheManager α) (encoder : ε) (objs : α → Request α) : Scheduler α ε where
  kv := kv
  encoder := encoder
  objs := objs
  requests := []
  running := []
  waiting := []
  skippedWaiting := []
  pauseState := .unpaused
  finishedReqIds := []
  prevStepScheduledReqIds := []
  numWaitingForStreamingInput := 0
  finishedRecvingKvReqIds := []
  failedRecvingKvReqIds := []

def enqueueWaitingRequest (policy : SchedulingPolicy) (s : Scheduler α ε) (r : α) :
    Scheduler α ε :=
  if (s.objs r).status.isBlockedWaiting then
    { s with skippedWaiting := RequestQueue.addRequest policy s.lt s.skippedWaiting r }
  else { s with waiting := RequestQueue.addRequest policy s.lt s.waiting r }

def preempted (e : Core α ε) (s : Scheduler α ε) (r : α) : Scheduler α ε :=
  let s := { s with kv := s.kv.free r, encoder := e.enc.free s.encoder (s.objs r) }
  let s := s.modify r Request.preempt
  { s with waiting := RequestQueue.prependRequest e.policy s.lt s.waiting r }

def preemptRequest (e : Core α ε) (s : Scheduler α ε) (r : α) :
    Except PyError (Scheduler α ε) := do
  pyAssert ((s.objs r).status = .running) "Only running requests can be preempted"
  return s.preempted e r

def freeBlocks (s : Scheduler α ε) (r : α) : Except PyError (Scheduler α ε) := do
  pyAssert ((s.objs r).isFinished) ""
  if r ∈ s.requests then
    return { s with kv := s.kv.free r, requests := s.requests.filter (fun x => x ≠ r) }
  else .error .keyError

end Scheduler
end TailBlend
