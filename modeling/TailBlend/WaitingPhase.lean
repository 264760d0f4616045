import TailBlend.RunningPhase

/-! The second pass of `schedule()`: the waiting requests. -/
namespace TailBlend
open OrderedDict
variable {α ε : Type} [LinearOrder α]

namespace Scheduler

/-- `_select_waiting_queue_for_scheduling`: whether `skipped_waiting` is served next. -/
def servesSkipped (policy : SchedulingPolicy) (s : Scheduler α ε) : Bool :=
  match policy with
  | .fcfs => !s.skippedWaiting.isEmpty
  | .priority => match s.waiting.head?, s.skippedWaiting.head? with
    | some w, some k => !s.lt w k
    | none, some _ => true
    | _, none => false

def peekWaiting (s : Scheduler α ε) (skipped : Bool) : Option α :=
  if skipped then s.skippedWaiting.head? else s.waiting.head?

def popWaiting (policy : SchedulingPolicy) (s : Scheduler α ε) (skipped : Bool) : Scheduler α ε :=
  if skipped then
    { s with skippedWaiting := RequestQueue.popRequest policy s.lt s.skippedWaiting }
  else { s with waiting := RequestQueue.popRequest policy s.lt s.waiting }

/-- The cache after a remote load: nothing is kept of a load that failed as a whole. -/
def cacheReceived (s : Scheduler α ε) (r : α) : Except PyError (KVCacheManager α) :=
  let req := s.objs r
  if r ∈ s.failedRecvingKvReqIds ∧ req.numComputedTokens = 0 then .ok (s.kv.free r)
  else s.kv.cacheBlocks req.toKV req.numComputedTokens

def updateWaitingForRemoteKv (s : Scheduler α ε) (r : α) : Except PyError (Scheduler α ε) := do
  let kv ← s.cacheReceived r
  let failed := r ∈ s.failedRecvingKvReqIds
  -- on a full hit the last token is computed again
  let s := s.modify r (fun req => { req with
    numComputedTokens := if ¬failed ∧ req.numComputedTokens = req.numTokens then
      req.numTokens - 1 else req.numComputedTokens })
  return { s with
    kv := kv
    failedRecvingKvReqIds := s.failedRecvingKvReqIds.filter (· ≠ r)
    finishedRecvingKvReqIds := s.finishedRecvingKvReqIds.filter (· ≠ r) }

def tryPromote (inp : ScheduleInput α) (s : Scheduler α ε) (r : α) :
    Except PyError (Scheduler α ε × Bool) :=
  match (s.objs r).status with
  | .waitingForRemoteKvs =>
    if r ∉ s.finishedRecvingKvReqIds then .ok (s, false)
    else do
      pyAssert (inp.connector.isSome) ""
      let s ← s.updateWaitingForRemoteKv r
      return (s.modify r (fun req => { req with
        status := if req.numPreemptions ≠ 0 then .preempted else .waiting }), true)
  | .waitingForStructuredOutputGrammar =>
    if inp.grammarReady r then .ok (s.modify r (fun req => { req with status := .waiting }), true)
    else .ok (s, false)
  | .waitingForStreamingReq => do
    pyAssert ((s.objs r).streamingQueue.getD [] = []) ""
    return (s, false)
  | _ => .error (.assertionError "Unexpected blocked waiting status in promotion")

end Scheduler

/-- The variables of `schedule()` during its second pass. -/
structure WaitingPhase (α ε : Type) where
  sched : Scheduler α ε
  tokenBudget : Int
  encoderComputeBudget : Int
  stepSkippedWaiting : List α
  scheduledNewReqs : List α
  scheduledResumedReqs : List α
  scheduledLoras : List Nat
  reqToNewBlocks : List (α × List (List Nat))
  numScheduledTokens : List (α × Int)
  scheduledEncoderInputs : List (α × List Nat)
  /-- What the encoder cache connector is told to load. -/
  externalLoads : List String

structure Admission where
  newComputedBlocks : List (List Nat)
  numNewLocalComputedTokens : Nat
  numExternalComputedTokens : Nat
  loadKvAsync : Bool
  numComputedTokens : Int

/-- How many tokens a waiting request gets, with its encoder inputs. -/
structure TokenGrant where
  numNewTokens : Int
  plan : EncoderPlan

namespace WaitingPhase
variable (e : Core α ε) (inp : ScheduleInput α)

variable (st : WaitingPhase α ε)

def skip (skipped : Bool) (r : α) : WaitingPhase α ε :=
  let s := st.sched.popWaiting e.policy skipped
  { st with
    sched := s
    stepSkippedWaiting := RequestQueue.prependRequest e.policy s.lt st.stepSkippedWaiting r }

def exceedsLoras (maxLoras : Option Nat) (loras : List Nat) (req : Request α) : Bool :=
  match maxLoras, req.loraRequest with
  | some limit, some lora => loras.length = limit ∧ lora.loraIntId ∉ loras
  | _, _ => false

/-- The computed tokens of a waiting request; `none` when the connector cannot tell yet. -/
def lookup (s : Scheduler α ε) (r : α) : Except PyError (Option Admission) := do
  let req := s.objs r
  if req.numComputedTokens = 0 then
    let (blocks, numLocal) ← s.kv.getComputedBlocks req.toKV
    match inp.connector.elim (some (0, false)) (fun matched => matched r numLocal) with
    | none => return none
    | some (numExternal, loadAsync) =>
      pyAssert (((numLocal + numExternal : Nat) : Int) ≤ req.numTokens) ""
      pyAssert (req.prefillStats → ((numLocal + numExternal : Nat) : Int) ≤ req.numPromptTokens) ""
      return some ⟨blocks, numLocal, numExternal, loadAsync, (numLocal + numExternal : Nat)⟩
  else return some ⟨s.kv.emptyBlocks, 0, 0, false, req.numComputedTokens⟩

def wantedTokens (c : SchedulerConfig) (req : Request α) (adm : Admission) : Int :=
  let n := req.numTokens - adm.numComputedTokens
  if 0 < c.longPrefillTokenThreshold ∧ c.longPrefillTokenThreshold < n then
    c.longPrefillTokenThreshold else n

def planEncoder (req : Request α) (adm : Admission) (n : Int) :
    Except PyError (WaitingPhase α ε × EncoderPlan) :=
  if req.hasEncoderInputs then do
    let (encoder, plan) ← e.enc.trySchedule st.sched.encoder req adm.numComputedTokens n
      st.encoderComputeBudget (if e.useEagle then 1 else 0)
    return ({ st with sched := { st.sched with encoder := encoder } }, plan)
  else .ok (st, ⟨[], n, st.encoderComputeBudget, []⟩)

/-- The number of tokens to schedule; `none` leaves the loop. A load from remote gets none. -/
def grant (req : Request α) (adm : Admission) :
    Except PyError (WaitingPhase α ε × Option TokenGrant) := do
  if adm.loadKvAsync then
    pyAssert (adm.numExternalComputedTokens > 0) ""
    return (st, some ⟨0, ⟨[], 0, st.encoderComputeBudget, []⟩⟩)
  else
    let n := wantedTokens e.toSchedulerConfig req adm
    if e.enableChunkedPrefill = false ∧ n > st.tokenBudget then return (st, none)
    else
      pyAssert (min n st.tokenBudget > 0) ""
      let (st, plan) ← st.planEncoder e req adm (min n st.tokenBudget)
      if req.hasEncoderInputs ∧ plan.numNewTokens = 0 then return (st, none)
      else return (st, some ⟨plan.numNewTokens, plan⟩)

/-- `_mamba_block_aligned_split` of the grant, where it applies; `none` leaves the loop. -/
def splitGrant (req : Request α) (adm : Admission) (g : TokenGrant) :
    Except PyError (Option TokenGrant) := do
  let n ← splitTokens e.toSchedulerConfig req g.numNewTokens adm.numNewLocalComputedTokens
    adm.numExternalComputedTokens
  return if e.needMambaBlockAlignedSplit ∧ n = 0 then none
    else some { g with numNewTokens := n }

def slotArgs (req : Request α) (adm : Admission) (g : TokenGrant) : KVCacheManager.SlotArgs where
  numNewTokens := g.numNewTokens
  numNewComputedTokens := adm.numNewLocalComputedTokens
  newComputedBlocks := some adm.newComputedBlocks
  numLookaheadTokens := if req.numComputedTokens = 0 then 0 else e.numLookaheadTokens
  numExternalComputedTokens := adm.numExternalComputedTokens
  delayCacheBlocks := adm.loadKvAsync
  numEncoderTokens := if e.isEncoderDecoder ∧ req.hasEncoderInputs then
    (g.plan.inputs.map (fun i => (req.getNumEncoderEmbeds i : Int))).sum else 0
  fullSequenceMustFit := e.schedulerReserveFullIsl

def awaitLoad (skipped : Bool) (r : α) (adm : Admission) : WaitingPhase α ε :=
  let s := st.sched.popWaiting e.policy skipped
  let s := s.modify r (fun req => { req with
    status := .waitingForRemoteKvs
    numComputedTokens := adm.numComputedTokens })
  { st with
    sched := s
    stepSkippedWaiting := RequestQueue.prependRequest e.policy s.lt st.stepSkippedWaiting r }

def started (skipped : Bool) (r : α) (adm : Admission) (g : TokenGrant)
    (encoder : ε) : WaitingPhase α ε :=
  let s := st.sched.popWaiting e.policy skipped
  let req := s.objs r
  let s := { s with
    running := s.running ++ [r]
    encoder := encoder }
  { st with
    sched := s.modify r (fun req => { req with
      status := .running
      numComputedTokens := adm.numComputedTokens })
    tokenBudget := st.tokenBudget - g.numNewTokens
    encoderComputeBudget :=
      if g.plan.inputs = [] then st.encoderComputeBudget else g.plan.computeBudget
    scheduledNewReqs := if req.status = .waiting then st.scheduledNewReqs ++ [r]
      else st.scheduledNewReqs
    scheduledResumedReqs := if req.status = .preempted then st.scheduledResumedReqs ++ [r]
      else st.scheduledResumedReqs
    scheduledLoras := match e.maxLoras, req.loraRequest with
      | some _, some lora => if lora.loraIntId ∈ st.scheduledLoras then st.scheduledLoras
          else st.scheduledLoras ++ [lora.loraIntId]
      | _, _ => st.scheduledLoras
    reqToNewBlocks := set st.reqToNewBlocks r (s.kv.getBlocks r)
    numScheduledTokens := set st.numScheduledTokens r g.numNewTokens
    scheduledEncoderInputs := if g.plan.inputs = [] then st.scheduledEncoderInputs
      else set st.scheduledEncoderInputs r g.plan.inputs
    externalLoads := st.externalLoads ++ req.mmHashes g.plan.externalInputs }

/-- Start the request, which has to be new or preempted. -/
def start (skipped : Bool) (r : α) (adm : Admission) (g : TokenGrant) :
    Except PyError (WaitingPhase α ε) :=
  if (st.sched.objs r).status = .waiting ∨ (st.sched.objs r).status = .preempted then do
    let encoder ← e.enc.allocateAll st.sched.encoder (st.sched.objs r)
      (g.plan.inputs ++ g.plan.externalInputs)
    return st.started e skipped r adm g encoder
  else .error (.runtimeError "Invalid request status")

def allocateAndStart (skipped : Bool) (r : α) (adm : Admission)
    (g : TokenGrant) : Except PyError (WaitingPhase α ε × Bool) := do
  let req := st.sched.objs r
  let (kv, newBlocks) ← st.sched.kv.allocateSlots req.toKV (slotArgs e req adm g)
  match newBlocks with
  | none =>
    let encoder := if req.hasEncoderInputs then e.enc.free st.sched.encoder req
      else st.sched.encoder
    return ({ st with sched := { st.sched with kv := kv, encoder := encoder } }, false)
  | some _ =>
    let st := { st with sched := { st.sched with kv := kv } }
    if adm.loadKvAsync then return (st.awaitLoad e skipped r adm, true)
    else
      let st ← st.start e skipped r adm g
      return (st, true)

def tryAdmit (skipped : Bool) (r : α) : Except PyError (WaitingPhase α ε × Bool) := do
  let req := st.sched.objs r
  match ← lookup inp st.sched r with
  | none => return (st.skip e skipped r, true)
  | some adm =>
    match ← st.grant e req adm with
    | (st, none) => return (st, false)
    | (st, some g) =>
      match ← splitGrant e req adm g with
      | none => return (st, false)
      | some g => st.allocateAndStart e skipped r adm g

/-- What the loop does with the request it looks at. -/
inductive Next (α ε : Type) where
  | stop
  | skip (st : WaitingPhase α ε) (skipped : Bool) (r : α)
  | consider (st : WaitingPhase α ε) (skipped : Bool) (r : α)

/-- The guards of the loop's body. -/
def next (defer : Scheduler α ε → α → Bool) (st : WaitingPhase α ε) :
    Except PyError (Next α ε) := do
  let skipped := st.sched.servesSkipped e.policy
  match st.sched.peekWaiting skipped with
  | none => return .stop
  | some r =>
    if st.tokenBudget ≤ 0 ∨ st.sched.running.length = e.maxNumRunningReqs then return .stop
    else if defer st.sched r then return .skip st skipped r
    else
      let (s, ready) ← (if (st.sched.objs r).status.isBlockedWaiting then
          st.sched.tryPromote inp r
        else .ok (st.sched, true))
      let st := { st with sched := s }
      if ready = false ∨ exceedsLoras e.maxLoras st.scheduledLoras (st.sched.objs r) then
        return .skip st skipped r
      else return .consider st skipped r

def step (defer : Scheduler α ε → α → Bool) (st : WaitingPhase α ε) :
    Except PyError (WaitingPhase α ε × Bool) := do
  match ← st.next e inp defer with
  | .stop => return (st, false)
  | .skip st skipped r => return (st.skip e skipped r, true)
  | .consider st skipped r => st.tryAdmit e inp skipped r

/-- The second pass; every round takes a request out of the queues or is the last. -/
def loop (defer : Scheduler α ε → α → Bool) (st : WaitingPhase α ε) :
    Except PyError (WaitingPhase α ε) :=
  Loop.run (step e inp defer)
    (st.sched.waiting.length + st.sched.skippedWaiting.length + 1) st

/-- The end of the pass: the skipped requests go ahead of those skipped earlier. -/
def requeue : Scheduler α ε :=
  { st.sched with
    skippedWaiting := RequestQueue.prependRequests e.policy st.sched.lt
      st.sched.skippedWaiting st.stepSkippedWaiting }

end WaitingPhase
end TailBlend
