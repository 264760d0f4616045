import TailBlend.Lib.Loop
import TailBlend.Scheduler

/-! The first pass of `schedule()`: the running requests, with preemption when
`allocate_slots` fails. -/
namespace TailBlend
open OrderedDict
variable {α ε : Type} [LinearOrder α]

def mambaBlockAlignedSplit (c : SchedulerConfig) (req : Request α) (numNewTokens
    numNewLocalComputedTokens numExternalComputedTokens : Int) : Except PyError Int := do
  pyAssert (numExternalComputedTokens = 0) "External KV connector is not verified yet"
  let numComputedTokens :=
    req.numComputedTokens + numNewLocalComputedTokens + numExternalComputedTokens
  if numComputedTokens < max req.numPromptTokens (req.numTokens - 1) then
    let last := req.numTokens - req.numTokens % c.blockSize
    let last := if c.useEagle then max (last - c.blockSize) 0 else last
    let after := numComputedTokens + numNewTokens
    if after < last then return numNewTokens / c.blockSize * c.blockSize
    else if numComputedTokens < last ∧ last < after then return last - numComputedTokens
    else return numNewTokens
  else return numNewTokens

def splitTokens (c : SchedulerConfig) (req : Request α) (numNewTokens numNewLocalComputedTokens
    numExternalComputedTokens : Int) : Except PyError Int :=
  if c.needMambaBlockAlignedSplit then
    mambaBlockAlignedSplit c req numNewTokens numNewLocalComputedTokens numExternalComputedTokens
  else .ok numNewTokens

/-- The variables of `schedule()` during its first pass. -/
structure RunningPhase (α ε : Type) where
  sched : Scheduler α ε
  reqIndex : Nat
  tokenBudget : Int
  encoderComputeBudget : Int
  scheduledRunningReqs : List α
  preemptedReqs : List α
  reqToNewBlocks : List (α × List (List Nat))
  numScheduledTokens : List (α × Int)
  scheduledSpecDecodeTokens : List (α × List Int)
  scheduledEncoderInputs : List (α × List Nat)
  /-- What the encoder cache connector is told to load. -/
  externalLoads : List String

namespace RunningPhase

def init (c : SchedulerConfig) (s : Scheduler α ε) : RunningPhase α ε where
  sched := s
  reqIndex := 0
  tokenBudget := if s.pauseState = .pausedAll then 0 else c.maxNumScheduledTokens
  encoderComputeBudget := c.maxNumEncoderInputTokens
  scheduledRunningReqs := []
  preemptedReqs := []
  reqToNewBlocks := []
  numScheduledTokens := []
  scheduledSpecDecodeTokens := []
  scheduledEncoderInputs := []
  externalLoads := []

variable (e : Core α ε)

def reachedMaxTokens (req : Request α) : Bool :=
  req.numOutputPlaceholders > 0 ∧
    req.numComputedTokens + 2 - req.numOutputPlaceholders ≥ req.numPromptTokens + req.maxTokens

def wantedTokens (c : SchedulerConfig) (req : Request α) (tokenBudget : Int) : Int :=
  let n := req.numTokensWithSpec + req.numOutputPlaceholders - req.numComputedTokens
  let n := if 0 < c.longPrefillTokenThreshold ∧ c.longPrefillTokenThreshold < n then
    c.longPrefillTokenThreshold else n
  min (min n tokenBudget) (c.maxModelLen - 1 - req.numComputedTokens)

/-- `max(running, key=(priority, arrival_time))`: the first of the largest. -/
def maxByPriority (s : Scheduler α ε) : List α → Option α
  | [] => none
  | r :: rs => some (rs.foldl (fun best x =>
      let b := s.objs best
      let y := s.objs x
      if b.priority < y.priority ∨ (b.priority = y.priority ∧ b.arrivalTime < y.arrivalTime) then x
      else best) r)

/-- The request to preempt: the controller's choice, else by policy. -/
def chooseVictim (policy : SchedulingPolicy) (choice : Option α) (s : Scheduler α ε) :
    Except PyError α :=
  match choice with
  | some v => .ok v
  | none => match policy with
    | .priority => match maxByPriority s s.running with
      | some v => .ok v
      | none => .error (.valueError "max() arg is an empty sequence")
    | .fcfs => match s.running.getLast? with
      | some v => .ok v
      | none => .error .indexError

variable (st : RunningPhase α ε)

def dropPlan (v : α) : RunningPhase α ε :=
  let inputs := (get? st.scheduledEncoderInputs v).getD []
  { st with
    scheduledRunningReqs := st.scheduledRunningReqs.erase v
    tokenBudget := st.tokenBudget + (get? st.numScheduledTokens v).getD 0
    numScheduledTokens := erase st.numScheduledTokens v
    reqToNewBlocks := erase st.reqToNewBlocks v
    scheduledSpecDecodeTokens := erase st.scheduledSpecDecodeTokens v
    scheduledEncoderInputs := erase st.scheduledEncoderInputs v
    encoderComputeBudget := st.encoderComputeBudget +
      (inputs.map (fun i => ((st.sched.objs v).getNumEncoderEmbeds i : Int))).sum }

/-- Take `v` out of `running`, with the index of the loop moved back when `v` stood before it,
and out of the plan. -/
def takeOut (v : α) : RunningPhase α ε :=
  let index := st.sched.running.idxOf v
  let st := { st with
    sched := { st.sched with running := st.sched.running.eraseIdx index }
    reqIndex := if index < st.reqIndex then st.reqIndex - 1 else st.reqIndex }
  if v ∈ st.scheduledRunningReqs then st.dropPlan v else st

def preempt (v : α) : Except PyError (RunningPhase α ε) := do
  if v ∉ st.sched.running then .error (.valueError "is not in list")
  else
    let s ← (st.takeOut v).sched.preemptRequest e v
    return { st.takeOut v with sched := s, preemptedReqs := st.preemptedReqs ++ [v] }

/-- The body of the inner loop: `allocate_slots`, and a preemption when it fails. The blocks
leave the loop, and so does a request that was its own victim. -/
def allocateRound (victim : Scheduler α ε → Nat → α → Option α) (r : α) (n : Int)
    (x : RunningPhase α ε × Option (List (List Nat))) :
    Except PyError ((RunningPhase α ε × Option (List (List Nat))) × Bool) := do
  let st := x.1
  let (kv, newBlocks) ← st.sched.kv.allocateSlots (st.sched.objs r).toKV
    (.running n e.numLookaheadTokens)
  let st := { st with sched := { st.sched with kv := kv } }
  match newBlocks with
  | some blocks => return ((st, some blocks), false)
  | none =>
    let v ← chooseVictim e.policy (victim st.sched st.preemptedReqs.length r) st.sched
    let st ← st.preempt e v
    return ((st, none), v ≠ r)

/-- The inner loop; every round that fails shortens `running`. -/
def allocateOrPreempt (victim : Scheduler α ε → Nat → α → Option α) (r : α) (n : Int)
    (st : RunningPhase α ε) : Except PyError (RunningPhase α ε × Option (List (List Nat))) :=
  Loop.run (allocateRound e victim r n) (st.sched.running.length + 1) (st, none)

def scheduledDrafts (req : Request α) (n : Int) : List Int :=
  let num := n + req.numComputedTokens - req.numTokens - req.numOutputPlaceholders
  if num > 0 then req.specTokenIds.take num.toNat else []

def record (r : α) (n : Int) (blocks : List (List Nat))
    (plan : EncoderPlan) (encoder : ε) : RunningPhase α ε :=
  let req := st.sched.objs r
  let drafts := scheduledDrafts req n
  { st with
    sched := { st.sched.modify r (fun req => { req with specTokenIds := [] }) with
      encoder := encoder }
    reqIndex := st.reqIndex + 1
    tokenBudget := st.tokenBudget - n
    encoderComputeBudget :=
      if plan.inputs = [] then st.encoderComputeBudget else plan.computeBudget
    scheduledRunningReqs := st.scheduledRunningReqs ++ [r]
    reqToNewBlocks := set st.reqToNewBlocks r blocks
    numScheduledTokens := set st.numScheduledTokens r n
    scheduledSpecDecodeTokens := if drafts = [] then st.scheduledSpecDecodeTokens
      else set st.scheduledSpecDecodeTokens r drafts
    scheduledEncoderInputs := if plan.inputs = [] then st.scheduledEncoderInputs
      else set st.scheduledEncoderInputs r plan.inputs
    externalLoads := st.externalLoads ++ req.mmHashes plan.externalInputs }

def skip : RunningPhase α ε := { st with reqIndex := st.reqIndex + 1 }

def planEncoder (req : Request α) (n : Int) : Except PyError (RunningPhase α ε × EncoderPlan) :=
  if req.hasEncoderInputs then do
    let (encoder, plan) ← e.enc.trySchedule st.sched.encoder req req.numComputedTokens n
      st.encoderComputeBudget (if e.useEagle then 1 else 0)
    return ({ st with sched := { st.sched with encoder := encoder } }, plan)
  else .ok (st, ⟨[], n, st.encoderComputeBudget, []⟩)

inductive Next (α ε : Type) where
  | stop
  | skip (st : RunningPhase α ε)
  | allocate (st : RunningPhase α ε) (r : α) (n : Int) (plan : EncoderPlan)

/-- The body of the loop up to `allocate_slots`. -/
def next (admitted : Option (List α)) (st : RunningPhase α ε) : Except PyError (Next α ε) := do
  match st.sched.running[st.reqIndex]? with
  | none => return .stop
  | some r =>
    let req := st.sched.objs r
    if st.tokenBudget ≤ 0 then return .stop
    else if admitted.any (fun ids => r ∉ ids) ∨ reachedMaxTokens req then return .skip st
    else
      let (st, plan) ← st.planEncoder e req (wantedTokens e.toSchedulerConfig req st.tokenBudget)
      let n ← splitTokens e.toSchedulerConfig req plan.numNewTokens 0 0
      if n = 0 then return .skip st else return .allocate st r n plan

def step (admitted : Option (List α)) (victim : Scheduler α ε → Nat → α → Option α)
    (st : RunningPhase α ε) : Except PyError (RunningPhase α ε × Bool) := do
  match ← st.next e admitted with
  | .stop => return (st, false)
  | .skip st => return (st.skip, true)
  | .allocate st r n plan =>
    match ← st.allocateOrPreempt e victim r n with
    | (st, none) => return (st, false)
    | (st, some blocks) =>
      let encoder ← e.enc.allocateAll st.sched.encoder (st.sched.objs r)
        (plan.inputs ++ plan.externalInputs)
      return (st.record r n blocks plan encoder, true)

/-- The first pass. Every round moves `req_index` or shortens `running`. -/
def loop (admitted : Option (List α)) (victim : Scheduler α ε → Nat → α → Option α)
    (st : RunningPhase α ε) : Except PyError (RunningPhase α ε) :=
  Loop.run (step e admitted victim) (st.sched.running.length + 1) st

end RunningPhase
end TailBlend
