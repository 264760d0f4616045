import TailBlend.Lib.Trace
import TailBlend.SchedulerUpdate

/-! Runs of the scheduler: calls in any order, with the outputs of the issued steps applied in
the order in which they were issued. -/
namespace TailBlend
variable {α ε κ : Type} [LinearOrder α]

inductive Event (α : Type) where
  | addRequest (args : Request.Args α) (connector : Option (α → Bool)) (now : ℚ)
  | schedule (inp : ScheduleInput α)
  /-- The output of the oldest step in flight arrives. -/
  | updateFromOutput (mo : ModelOutput α)
  | updateDraftTokenIds (drafts : List (α × List Int))
  | finishRequests (ids : Option (List α)) (status : RequestStatus) (connector : Option (α → Bool))
      (now : ℚ)
  | resetPrefixCache (resetRunningRequests : Bool)
  | setPauseState (state : PauseState)

/-- The scheduler, its controllers and the steps in flight, the oldest first. -/
structure System (α ε κ : Type) where
  sched : Scheduler α ε
  ctrl : κ
  inFlight : List (SchedulerOutput α)

namespace System

def step (e : Env α ε κ) (sys : System α ε κ) : Event α → Except PyError (System α ε κ)
  | .addRequest args connector now => do
    let (s, k) ← sys.sched.addRequest e connector now sys.ctrl (.new args)
    return { sys with sched := s, ctrl := k }
  | .schedule inp => do
    let (s, k, out) ← sys.sched.schedule e inp sys.ctrl
    return ⟨s, k, sys.inFlight ++ [out]⟩
  | .updateFromOutput mo =>
    match sys.inFlight with
    | [] => .ok sys
    | out :: rest => do
      let (s, k, _) ← sys.sched.updateFromOutput e out mo sys.ctrl
      return ⟨s, k, rest⟩
  | .updateDraftTokenIds drafts => .ok { sys with sched := sys.sched.updateDraftTokenIds drafts }
  | .finishRequests ids status connector now => do
    let (s, k) ← sys.sched.finishRequests e connector now sys.ctrl ids status
    return { sys with sched := s, ctrl := k }
  | .resetPrefixCache resetRunningRequests => do
    let (s, _) ← sys.sched.resetPrefixCache e.toCore resetRunningRequests
    return { sys with sched := s }
  | .setPauseState state => .ok { sys with sched := { sys.sched with pauseState := state } }

abbrev run (e : Env α ε κ) (sys : System α ε κ) (evs : List (Event α)) :
    Except PyError (System α ε κ) := Trace.run (step e) sys evs

end System

/-! A text-only deployment with the controllers switched off. -/

def EncoderOps.text : EncoderOps α Unit where
  trySchedule _ _ _ n budget _ := .ok ((), ⟨[], n, budget, []⟩)
  allocate _ _ _ := .ok ()
  free _ _ := ()
  freeInputs _ _ := ()
  getFreedMmHashes _ := ((), [])

def Hooks.disabled : Hooks α ε Unit where
  planAdmitted _ _ _ _ := (none, ())
  shouldDefer _ _ _ _ := false
  selectVictim _ _ _ _ := none
  stepFeatures _ _ _ _ := .zero
  observeStep _ _ _ := ()
  prepareRequest _ _ := ()
  observeOutput _ _ _ := ()
  observeFinished _ _ _ := ()

def SchedulerConfig.text (blockSize : Nat) (maxNumScheduledTokens : Int) : SchedulerConfig where
  policy := .fcfs
  maxNumRunningReqs := 8
  maxNumScheduledTokens := maxNumScheduledTokens
  maxModelLen := 100
  longPrefillTokenThreshold := 0
  enableChunkedPrefill := true
  numSpecTokens := 0
  numLookaheadTokens := 0
  useEagle := false
  blockSize := blockSize
  isEncoderDecoder := false
  maxNumEncoderInputTokens := 0
  maxLoras := none
  schedulerReserveFullIsl := false
  needMambaBlockAlignedSplit := false
  needsKvCacheZeroing := false
  usePp := false
  useV2ModelRunner := false
  asyncScheduling := false
  recomputeKvLoadFailures := true

def Core.text (c : SchedulerConfig) : Core α Unit := { c with enc := .text }

def Env.text (c : SchedulerConfig) : Env α Unit Unit := { Core.text c with hooks := .disabled }

def Request.Args.text (r : α) (arrivalTime : ℚ) (prompt : List Int) (maxTokens : Int) :
    Request.Args α where
  requestId := r
  externalReqId := none
  priority := 0
  arrivalTime := arrivalTime
  task := .sampling ⟨0, none, [], [], none⟩ maxTokens false
  loraRequest := none
  prompt := .tokens prompt
  cacheSalt := none
  mmFeatures := []
  hashBlockSize := none
  skipReadingPrefixCache := false
  resumable := false

def ScheduleInput.text : ScheduleInput α := ⟨0, fun _ _ => 0, fun _ => true, none⟩

def ModelOutput.text (tokens : α → List Int) : ModelOutput α :=
  ⟨0, tokens, fun _ => false, fun _ => false, none, none⟩

def KVCacheSpec.text (blockSize : Nat) (hpos : 0 < blockSize) : KVCacheSpec where
  kind := .fullAttention .full
  blockSize := blockSize
  layout := ⟨1, 1, 0, none, 0⟩
  blockSize_pos := hpos
  kind_valid := trivial

def KVCacheManager.text (blockSize numBlocks : Nat) (hpos : 0 < blockSize)
    (enableCaching : Bool) : KVCacheManager α :=
  .init [⟨.text blockSize hpos, false⟩] numBlocks blockSize enableCaching false false 100 100

def System.text (kv : KVCacheManager α) : System α Unit Unit :=
  ⟨.init kv () (fun r => .new (.text r 0 [] 0)), (), []⟩

end TailBlend
