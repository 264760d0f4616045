import TailBlend.Schedule

/-! `update_from_output`, `add_request`, `finish_requests` and `reset_prefix_cache`. -/
namespace TailBlend
variable {α ε κ : Type} [LinearOrder α]

structure KVConnectorOutput (α : Type) where
  finishedRecving : List α
  finishedSending : List α
  invalidBlockIds : List Nat

structure ModelOutput (α : Type) where
  now : ℚ
  sampledTokenIds : α → List Int
  /-- A pooling output is present. -/
  pooled : α → Bool
  /-- The grammar of the request has to advance and rejects the new tokens. -/
  grammarRejects : α → Bool
  /-- Whether the KV connector, when there is one, delays freeing a finished request. -/
  connector : Option (α → Bool)
  kvConnectorOutput : Option (KVConnectorOutput α)

structure EngineCoreOutput (α : Type) where
  requestId : α
  newTokenIds : List Int
  finishReason : Option FinishReason

namespace Scheduler

/-! Stopped and finished requests. -/

variable (s : Scheduler α ε)

def updateRequestAsSession (r : α) (update : StreamingUpdate) : Scheduler α ε :=
  let n := s.numWaitingForStreamingInput
  { s.modify r (fun req => req.updateAsSession update) with
    numWaitingForStreamingInput :=
      if (s.objs r).status = .waitingForStreamingReq then n - 1 else n }

/-- `_handle_stopped_request`: whether the request is finished; a session continues with its
next input chunk or waits for one. -/
def handleStoppedRequest (policy : SchedulingPolicy) (s : Scheduler α ε) (r : α) :
    Scheduler α ε × Bool :=
  let req := s.objs r
  if req.resumable = false then (s, true)
  else match req.streamingQueue.getD [] with
    | none :: rest => (s.modify r (fun req => { req with streamingQueue := some rest }), true)
    | some update :: rest =>
      let s := s.modify r (fun req => { req with streamingQueue := some rest })
      ((s.updateRequestAsSession r update).enqueueWaitingRequest policy r, false)
    | [] =>
      let s := { s.modify r (fun req => { req with status := .waitingForStreamingReq }) with
        numWaitingForStreamingInput := s.numWaitingForStreamingInput + 1 }
      (s.enqueueWaitingRequest policy r, false)

variable (e : Env α ε κ)

def freeRequest (connector : Option (α → Bool)) (now : ℚ) (s : Scheduler α ε)
    (k : κ) (r : α) (delayFreeBlocks : Bool) : Except PyError (Scheduler α ε × κ) := do
  let req := s.objs r
  pyAssert req.isFinished ""
  let k := e.hooks.observeFinished k req now
  let kv ← (if connector.isSome then s.kv.removeSkippedBlocks r req.numComputedTokens
    else .ok s.kv)
  let s := { s with
    kv := kv
    encoder := e.enc.free s.encoder req
    finishedReqIds := if r ∈ s.finishedReqIds then s.finishedReqIds else s.finishedReqIds ++ [r] }
  if delayFreeBlocks ∨ connector.any (fun delays => delays r) then return (s, k)
  else
    let s ← s.freeBlocks r
    return (s, k)

def finishAll (e : Env α ε κ) (connector : Option (α → Bool)) (now : ℚ) (status : RequestStatus) :
    Scheduler α ε → κ → List α → Except PyError (Scheduler α ε × κ)
  | s, k, [] => .ok (s, k)
  | s, k, r :: rs => do
    let remote := (s.objs r).status = .waitingForRemoteKvs
    let delay := remote ∧ r ∉ s.finishedRecvingKvReqIds
    let s := if remote then { s with
        finishedRecvingKvReqIds := s.finishedRecvingKvReqIds.filter (· ≠ r)
        failedRecvingKvReqIds := s.failedRecvingKvReqIds.filter (· ≠ r) } else s
    let s := s.modify r (fun req => { req with status := status })
    let (s, k) ← freeRequest e connector now s k r delay
    finishAll e connector now status s k rs

def validRequests (ids : Option (List α)) : List α :=
  ((ids.map List.dedup).getD s.requests).filter
    (fun r => r ∈ s.requests ∧ (s.objs r).isFinished = false)

def dequeueAll (policy : SchedulingPolicy) (s : Scheduler α ε) (rs : List α) : Scheduler α ε :=
  let running := rs.filter (fun r => (s.objs r).status = .running)
  let waiting := rs.filter (fun r => (s.objs r).status ≠ .running)
  let streaming := rs.filter (fun r => (s.objs r).status = .waitingForStreamingReq)
  { s with
    numWaitingForStreamingInput := s.numWaitingForStreamingInput - streaming.length
    running := removeAll s.running running
    waiting := if waiting = [] then s.waiting
      else RequestQueue.removeRequests policy s.lt s.waiting waiting
    skippedWaiting := if waiting = [] then s.skippedWaiting
      else RequestQueue.removeRequests policy s.lt s.skippedWaiting waiting }

def finishRequests (connector : Option (α → Bool)) (now : ℚ) (s : Scheduler α ε)
    (k : κ) (ids : Option (List α)) (status : RequestStatus) :
    Except PyError (Scheduler α ε × κ) := do
  pyAssert status.isFinished ""
  let rs := s.validRequests ids
  finishAll e connector now status (s.dequeueAll e.policy rs) k rs

/-! `update_from_output`. -/

def updateRequestWithOutput (c : SchedulerConfig) (now : ℚ) (s : Scheduler α ε) (r : α)
    (tokens : List Int) : Except PyError (Scheduler α ε × List Int × Bool) := do
  let req := s.objs r
  if c.asyncScheduling = false then
    let (req, kept, stopped) ← req.updateWithOutput c.maxModelLen now tokens
    return (s.modify r (fun _ => req), kept, stopped)
  else if req.discardLatestAsyncTokens then
    return (s.modify r (fun req => { req with discardLatestAsyncTokens := false }), [], false)
  else
    let (req', kept, stopped) ← req.updateWithOutput c.maxModelLen now tokens
    let req' := { req' with numOutputPlaceholders := req'.numOutputPlaceholders - kept.length }
    pyAssert ((0 : Int) ≤ req'.numOutputPlaceholders) ""
    let kv ← (if req.status = .running then
        s.kv.cacheBlocks req'.toKV (req'.numComputedTokens - req'.numOutputPlaceholders)
      else .ok s.kv)
    return ({ s with kv := kv }.modify r (fun _ => req'), kept, stopped)

def rejectDrafts (numDrafts numGenerated : Nat) (req : Request α) : Request α :=
  let numRejected : Int := numDrafts - (numGenerated - 1)
  { req with
    numComputedTokens := if req.numComputedTokens > 0 then req.numComputedTokens - numRejected
      else req.numComputedTokens
    numOutputPlaceholders := if req.numOutputPlaceholders > 0 then
      req.numOutputPlaceholders - numRejected else req.numOutputPlaceholders }

/-- The variables of the loop of `update_from_output`. -/
structure UpdateLoop (α ε κ : Type) where
  sched : Scheduler α ε
  ctrl : κ
  stoppedRunningReqs : List α
  stoppedPreemptedReqs : List α
  outputs : List (EngineCoreOutput α)

def applyTokens (c : SchedulerConfig) (mo : ModelOutput α) (s : Scheduler α ε) (r : α) :
    Except PyError (Scheduler α ε × List Int × Bool) := do
  let (s, kept, stopped) ← (if mo.sampledTokenIds r ≠ [] then
      s.updateRequestWithOutput c mo.now r (mo.sampledTokenIds r)
    else if (s.objs r).pooling ∧ mo.pooled r then
      .ok (s.modify r (fun req => { req with status := .finishedStopped }), [], true)
    else .ok (s, [], false))
  if kept ≠ [] ∧ mo.grammarRejects r then
    return (s.modify r (fun req => { req with status := .finishedError, resumable := false }),
      kept, true)
  else return (s, kept, stopped)

def stopRequest (mo : ModelOutput α) (s : Scheduler α ε) (k : κ) (r : α) :
    Except PyError (Scheduler α ε × κ) :=
  match s.handleStoppedRequest e.policy r with
  | (s, true) => freeRequest e mo.connector mo.now s k r false
  | (s, false) => .ok (s, k)

/-- What is done before the new tokens are applied: rejected drafts are taken back and the
encoder inputs that are no longer needed are freed. -/
def settle (e : Core α ε) (out : SchedulerOutput α) (mo : ModelOutput α) (s : Scheduler α ε)
    (r : α) : Scheduler α ε :=
  let drafts := (OrderedDict.get? out.scheduledSpecDecodeTokens r).getD []
  let generated := mo.sampledTokenIds r
  let s := if drafts ≠ [] ∧ generated ≠ [] then
      s.modify r (rejectDrafts drafts.length generated.length)
    else s
  if (s.objs r).hasEncoderInputs then
    { s with encoder := e.enc.freeInputs s.encoder (s.objs r) } else s

def updateOne (out : SchedulerOutput α) (mo : ModelOutput α)
    (st : UpdateLoop α ε κ) (r : α) : Except PyError (UpdateLoop α ε κ) := do
  let s := st.sched.settle e.toCore out mo r
  let statusBeforeStop := (s.objs r).status
  let (s, kept, stopped) ← s.applyTokens e.toSchedulerConfig mo r
  let finishReason := if stopped then (s.objs r).status.getFinishedReason else none
  let (s, k) ← (if stopped then stopRequest e mo s st.ctrl r else .ok (s, st.ctrl))
  let k := if kept ≠ [] then e.hooks.observeOutput k (s.objs r) kept else k
  let emits := kept ≠ [] ∨ mo.pooled r ∨ stopped
  return {
    sched := if emits then s.modify r (fun req => { req with prefillStats := false }) else s
    ctrl := k
    stoppedRunningReqs := if stopped ∧ statusBeforeStop = .running then
      st.stoppedRunningReqs ++ [r] else st.stoppedRunningReqs
    stoppedPreemptedReqs := if stopped ∧ statusBeforeStop ≠ .running then
      st.stoppedPreemptedReqs ++ [r] else st.stoppedPreemptedReqs
    outputs := if emits then st.outputs ++ [⟨r, kept, finishReason⟩] else st.outputs }

def updateLoop (e : Env α ε κ) (out : SchedulerOutput α) (mo : ModelOutput α) (failed : List α) :
    UpdateLoop α ε κ → List (α × Int) → Except PyError (UpdateLoop α ε κ)
  | st, [] => .ok st
  | st, (r, n) :: rest => do
    pyAssert (n > 0) ""
    let st ← (if r ∈ failed ∨ r ∉ st.sched.requests ∨ (st.sched.objs r).isFinished then .ok st
      else updateOne e out mo st r)
    updateLoop e out mo failed st rest

def removeStopped (policy : SchedulingPolicy) (st : UpdateLoop α ε κ) : Scheduler α ε :=
  { st.sched with
    running := removeAll st.sched.running st.stoppedRunningReqs
    waiting := if st.stoppedPreemptedReqs = [] then st.sched.waiting
      else RequestQueue.removeRequests policy st.sched.lt st.sched.waiting
        st.stoppedPreemptedReqs }

/-! KV transfers. -/

/-- The loop over the blocks of one request in `_update_requests_with_invalid_blocks`: the blocks
marked so far, whether the request is affected and the first block that it marks itself. -/
def scanBlocks (invalid : List Nat) :
    List (Nat × Nat) → List Nat → Bool → Option Nat → List Nat × Bool × Option Nat
  | [], marked, affected, first => (marked, affected, first)
  | (idx, b) :: rest, marked, affected, first =>
    if b ∉ invalid then scanBlocks invalid rest marked affected first
    else if b ∈ marked then scanBlocks invalid rest marked true first
    else scanBlocks invalid rest (marked ++ [b]) true (some (first.getD idx))

/-- `(req_block_ids,) = get_block_ids(req_id)`. -/
def onlyBlocks (r : α) : Except PyError (List Nat) :=
  match s.kv.getBlocks r with
  | [blocks] => .ok blocks
  | _ => .error (.valueError "too many values to unpack (expected 1)")

def updateInvalid (blockSize : Nat) (invalid : List Nat) (numScheduled : List (α × Int)) :
    Scheduler α ε → List Nat → List α → Except PyError (Scheduler α ε × List α × List Nat)
  | s, _, [] => .ok (s, [], [])
  | s, marked, r :: rs => do
    let blocks ← s.onlyBlocks r
    let numComputed := (s.objs r).numComputedTokens - (OrderedDict.get? numScheduled r).getD 0
    let numBlocks := ((numComputed + blockSize - 1) / blockSize).toNat
    let (marked, affected, first) :=
      scanBlocks invalid ((List.range numBlocks).zip blocks) marked false none
    let s := match first with
      | some idx => s.modify r (fun req => { req with numComputedTokens := idx * blockSize })
      | none => if affected then
          s.modify r (fun req => { req with numComputedTokens := numComputed }) else s
    let (s, ids, evict) ← updateInvalid blockSize invalid numScheduled s marked rs
    return (s, if affected then r :: ids else ids,
      (first.map (fun idx => blocks.drop idx)).getD [] ++ evict)

def handleInvalidBlocks (c : SchedulerConfig) (s : Scheduler α ε) (invalid : List Nat)
    (numScheduled : List (α × Int)) : Except PyError (Scheduler α ε × List α) := do
  let skipped := match c.policy with
    | .fcfs => s.skippedWaiting
    | .priority => Heap.drain s.lt s.skippedWaiting.length s.skippedWaiting
  let loading := skipped.filter (fun r => (s.objs r).status = .waitingForRemoteKvs)
  let (s, asyncIds, _) ← updateInvalid c.blockSize invalid numScheduled s [] loading
  let (s, syncIds, evict) ← updateInvalid c.blockSize invalid numScheduled s [] s.running
  if asyncIds = [] ∧ syncIds = [] then return (s, [])
  else if c.recomputeKvLoadFailures then
    return ({ s with failedRecvingKvReqIds := s.failedRecvingKvReqIds ++ asyncIds }, syncIds)
  else
    let kv ← (if evict = [] then .ok s.kv else s.kv.evictBlocks evict.dedup)
    return ({ s with kv := kv }, asyncIds ++ syncIds)

/-- `_update_from_kv_xfer_finished`, the receives. -/
def finishRecving : Scheduler α ε → List α → Except PyError (Scheduler α ε)
  | s, [] => .ok s
  | s, r :: rs => do
    pyAssert (r ∈ s.requests) ""
    let s ← (if (s.objs r).status = .waitingForRemoteKvs then
        .ok { s with finishedRecvingKvReqIds := s.finishedRecvingKvReqIds ++ [r] }
      else s.freeBlocks r)
    finishRecving s rs

/-- `_update_from_kv_xfer_finished`, the sends. -/
def finishSending : Scheduler α ε → List α → Except PyError (Scheduler α ε)
  | s, [] => .ok s
  | s, r :: rs => do
    pyAssert (r ∈ s.requests) ""
    let s ← s.freeBlocks r
    finishSending s rs

def finishTransfers (mo : ModelOutput α) (failed : List α) (s : Scheduler α ε)
    (k : κ) : Except PyError (Scheduler α ε × κ) := do
  let (s, k) ← (if failed ≠ [] ∧ e.recomputeKvLoadFailures = false then
      finishRequests e mo.connector mo.now s k (some failed) .finishedError
    else .ok (s, k))
  let s ← s.finishRecving ((mo.kvConnectorOutput.map KVConnectorOutput.finishedRecving).getD [])
  let s ← s.finishSending ((mo.kvConnectorOutput.map KVConnectorOutput.finishedSending).getD [])
  return (s, k)

def updateFromOutput (out : SchedulerOutput α) (mo : ModelOutput α) (s : Scheduler α ε) (k : κ) :
    Except PyError (Scheduler α ε × κ × List (EngineCoreOutput α)) := do
  let k := e.hooks.observeStep k mo.now out.features
  let invalid := (mo.kvConnectorOutput.map KVConnectorOutput.invalidBlockIds).getD []
  let (s, failed) ← (if invalid ≠ [] then
      s.handleInvalidBlocks e.toSchedulerConfig invalid out.numScheduledTokens
    else .ok (s, []))
  let st ← updateLoop e out mo failed ⟨s, k, [], [], []⟩ out.numScheduledTokens
  let (s, k) ← finishTransfers e mo failed (removeStopped e.policy st) st.ctrl
  return (s, k, st.outputs)

/-! The other calls. -/

def addRequest (connector : Option (α → Bool)) (now : ℚ) (s : Scheduler α ε)
    (k : κ) (req : Request α) : Except PyError (Scheduler α ε × κ) := do
  let r := req.requestId
  if r ∈ s.requests then
    if (s.objs r).status ≠ .waitingForStreamingReq then
      match (s.objs r).streamingQueue with
      | none => .error (.assertionError "duplicate request id")
      | some q => return (s.modify r (fun existing =>
          { existing with streamingQueue := some (q ++ [req.toStreamingUpdate]) }), k)
    else match req.toStreamingUpdate with
      | some update => return (s.updateRequestAsSession r update, k)
      | none => finishRequests e connector now s k (some [r]) .finishedAborted
  else
    let req := if req.resumable then { req with streamingQueue := some [] } else req
    let k := e.hooks.prepareRequest k req
    let s := s.modify r (fun _ => req)
    let s := s.enqueueWaitingRequest e.policy r
    return ({ s with requests := s.requests ++ [r] }, k)

def preemptAll (e : Core α ε) : Nat → Scheduler α ε → Except PyError (Scheduler α ε)
  | 0, s => .ok s
  | fuel + 1, s =>
    match s.running.getLast? with
    | none => .ok s
    | some r => do
      let s ← { s with running := s.running.dropLast }.preemptRequest e r
      preemptAll e fuel (s.modify r (fun req =>
        { req with numOutputPlaceholders := 0, discardLatestAsyncTokens := true }))

def preemptRunning (e : Core α ε) (s : Scheduler α ε) : Except PyError (Scheduler α ε) := do
  let s ← s.preemptAll e s.running.length
  return { s with prevStepScheduledReqIds := [] }

def resetPrefixCache (e : Core α ε) (s : Scheduler α ε) (resetRunningRequests : Bool) :
    Except PyError (Scheduler α ε × Bool) := do
  let s ← (if resetRunningRequests then s.preemptRunning e else .ok s)
  let (kv, ok) := s.kv.resetPrefixCache
  if resetRunningRequests ∧ ok = false then .error (.runtimeError
    ("Failed to reset KV cache even when all the running requests are preempted and moved to " ++
      "the waiting queue. This is likely due to the presence of running requests waiting for " ++
      "remote KV transfer, which is not supported yet."))
  else return ({ s with kv := kv }, ok)

def updateDraftTokenIds (drafts : List (α × List Int)) : Scheduler α ε :=
  drafts.foldl (fun s d =>
    if d.1 ∉ s.requests ∨ (s.objs d.1).isFinished then s
    else s.modify d.1 (fun req =>
      { req with specTokenIds := if req.isPrefillChunk then [] else d.2 })) s

end Scheduler
end TailBlend
