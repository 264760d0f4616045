import TailBlend.Detokenizer

/-! The output processor for one request: outputs from the detokenizer and the logprobs processor,
and the collector that merges them when the consumer is behind. -/
namespace TailBlend.OutputStream

inductive RequestOutputKind where
  | cumulative
  | delta
  | finalOnly
  deriving DecidableEq, Repr

inductive FinishReason where
  | stop
  | length
  | abort
  | error
  | repetition
  deriving DecidableEq, Repr

variable {τ ℓ : Type}

/-- A list object of logprobs: a list of its own, or the list that the processor appends to. -/
inductive LogprobsList (ℓ : Type) where
  | own (l : List ℓ)
  | shared

def LogprobsList.entries (l : List ℓ) : LogprobsList ℓ → List ℓ
  | own l' => l'
  | shared => l

structure CompletionOutput (τ ℓ : Type) where
  text : Text
  tokenIds : List τ
  logprobs : Option (LogprobsList ℓ)
  finishReason : Option FinishReason
  stopReason : Option Text

/-- `logprobs` is the list of the logprobs processor, if logprobs are requested. -/
structure RequestState (τ ℓ : Type) where
  outputKind : RequestOutputKind
  streamInterval : Nat
  detokenizer : Detokenizer τ
  logprobs : Option (List ℓ)
  sentTokensOffset : Nat

structure EngineCoreOutput (τ ℓ : Type) where
  newTokenIds : List τ
  newLogprobs : List ℓ
  finishReason : Option FinishReason
  length_eq : newLogprobs.length = newTokenIds.length

namespace RequestState

def newCompletionOutput (s : RequestState τ ℓ) (tokenIds : List τ)
    (finishReason : Option FinishReason) (stopReason : Option Text) :
    RequestState τ ℓ × CompletionOutput τ ℓ :=
  let finished := finishReason.isSome
  let delta : Bool := s.outputKind = .delta
  let (d, text) := s.detokenizer.getNextOutputText finished delta
  let tokenIds := if delta then tokenIds else d.tokenIds
  let logprobs := s.logprobs.map (fun l =>
    -- `logprobs[-len(token_ids):]`
    if delta ∧ l ≠ [] then .own (l.drop (pyBound l.length (-(tokenIds.length : Int))))
    else .shared)
  ({ s with detokenizer := d },
    { text := text
      tokenIds := tokenIds
      logprobs := logprobs
      finishReason := finishReason
      stopReason := if finished then stopReason else none })

def makeRequestOutput (s : RequestState τ ℓ) (newTokenIds : List τ)
    (finishReason : Option FinishReason) (stopReason : Option Text) :
    RequestState τ ℓ × Option (CompletionOutput τ ℓ) :=
  let finished := finishReason.isSome
  let create (x : RequestState τ ℓ × CompletionOutput τ ℓ) := (x.1, some x.2)
  if finished = false ∧ s.outputKind = .finalOnly then (s, none)
  else if s.streamInterval > 1 then
    let numOutputTokens := s.detokenizer.tokenIds.length
    -- the request has finished, sends its first tokens, or has enough new ones
    if finished ∨ s.sentTokensOffset = 0 ∨
        s.sentTokensOffset + s.streamInterval ≤ numOutputTokens then
      if s.outputKind = .delta then
        create ({ s with sentTokensOffset := numOutputTokens }.newCompletionOutput
          (s.detokenizer.tokenIds.drop s.sentTokensOffset) finishReason stopReason)
      else create (s.newCompletionOutput newTokenIds finishReason stopReason)
    else (s, none)
  else create (s.newCompletionOutput newTokenIds finishReason stopReason)

def processOutput (s : RequestState τ ℓ) (out : EngineCoreOutput τ ℓ) :
    RequestState τ ℓ × Option (CompletionOutput τ ℓ) × Option FinishReason :=
  let (d, stopString) := s.detokenizer.update out.newTokenIds (out.finishReason = some .stop)
  let finishReason := if stopString.isSome then some .stop else out.finishReason
  let s := { s with
    detokenizer := d
    logprobs := s.logprobs.map (fun l => l ++ out.newLogprobs) }
  let (s, output) := s.makeRequestOutput out.newTokenIds finishReason stopString
  (s, output, finishReason)

end RequestState

structure Stream (τ ℓ : Type) where
  state : RequestState τ ℓ
  /-- Whether the request is still among the states of the output processor. -/
  live : Bool
  output : Option (CompletionOutput τ ℓ)
  /-- The text, the tokens and the logprobs of each output, as they were when it was taken. -/
  received : List (Text × List τ × Option (List ℓ))
  /-- Ghost: the tokens and the logprobs of the engine outputs that were processed. -/
  tokens : List τ
  tokenLogprobs : List ℓ
  /-- Ghost: for each output that was made, the number of output tokens and whether it is final. -/
  made : List (Nat × Bool)

namespace Stream

variable (s : Stream τ ℓ)

/-- `RequestOutput.add` for outputs of the same index. The list of logprobs is extended in place,
also when it is the list of the processor. -/
def add (old next : CompletionOutput τ ℓ) : Except PyError (Stream τ ℓ) :=
  if s.state.outputKind = .delta then
    let entries := (next.logprobs.map (LogprobsList.entries (s.state.logprobs.getD []))).getD []
    let merged : CompletionOutput τ ℓ := { next with
      text := old.text ++ next.text
      tokenIds := old.tokenIds ++ next.tokenIds
      logprobs := old.logprobs }
    if entries = [] then .ok { s with output := some merged }
    else match old.logprobs with
      | none => .error (.assertionError "")
      | some (.own l) => .ok { s with
          output := some { merged with logprobs := some (.own (l ++ entries)) } }
      | some .shared => .ok { s with
          output := some merged
          state := { s.state with logprobs := s.state.logprobs.map (fun l => l ++ entries) } }
  else .ok { s with output := some next }

def put (next : CompletionOutput τ ℓ) : Except PyError (Stream τ ℓ) :=
  let s := { s with
    made := s.made ++ [(s.state.detokenizer.tokenIds.length, next.finishReason.isSome)] }
  match s.output with
  | none => .ok { s with output := some next }
  | some old => s.add old next

def putAll : Option (CompletionOutput τ ℓ) → Except PyError (Stream τ ℓ)
  | none => .ok s
  | some next => s.put next

/-- `get`, which waits while there is no output. -/
def get : Stream τ ℓ :=
  match s.output with
  | none => s
  | some o => { s with
      output := none
      received := s.received ++ [(o.text, o.tokenIds,
        o.logprobs.map (LogprobsList.entries (s.state.logprobs.getD [])))] }

inductive Event (τ ℓ : Type) where
  | engine (out : EngineCoreOutput τ ℓ)
  | abort
  | get

def step : Event τ ℓ → Except PyError (Stream τ ℓ)
  | .engine out =>
    -- an output for a request that is gone is ignored
    if s.live then
      let (state, output, finishReason) := s.state.processOutput out
      putAll { s with
        state := state
        live := finishReason.isNone
        tokens := s.tokens ++ out.newTokenIds
        tokenLogprobs := s.tokenLogprobs ++ out.newLogprobs } output
    else .ok s
  | .abort =>
    if s.live then
      let (state, output) := s.state.makeRequestOutput [] (some .abort) none
      putAll { s with state := state, live := false } output
    else .ok s
  | .get => .ok s.get

def init (outputKind : RequestOutputKind) (streamInterval : Nat)
    (decodeNext : List τ → τ → Text) (params : StopParams) (logprobs : Bool) : Stream τ ℓ where
  state := {
    outputKind := outputKind
    streamInterval := streamInterval
    detokenizer := .init decodeNext params
    logprobs := if logprobs then some [] else none
    sentTokensOffset := 0 }
  live := true
  output := none
  received := []
  tokens := []
  tokenLogprobs := []
  made := []

end Stream
end TailBlend.OutputStream
