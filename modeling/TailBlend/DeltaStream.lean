import TailBlend.OutputStream
import TailBlend.StopStrings
import TailBlend.Lib.Trace

/-! Streams of deltas: what the consumer gets against what the request has produced. -/
namespace TailBlend
open List
namespace Detokenizer
open TextSearch
variable {τ : Type}

section
variable (d : Detokenizer τ) (ts : List τ) (b : Bool)

theorem update_result :
    ∃ ts', (d.update ts b).2 = (d.update ts' false).2 ∧
      (d.update ts b).1.outputText = (d.update ts' false).1.outputText := by
  by_cases hb : b = true ∧ d.params.includeStopStrInOutput = false
  · rcases eq_nil_or_concat ts with rfl | ⟨init, t, rfl⟩
    · exact ⟨[], rfl, rfl⟩
    · rw [hb.1, concat_eq_append]
      obtain ⟨h1, h2⟩ := d.update_stopToken init t hb.2
      exact ⟨init, h1, h2⟩
  · have heq : d.update ts b = d.update ts false := by
      simp only [update, if_neg hb, Bool.false_eq_true, false_and, if_false]
    exact ⟨ts, by rw [heq], by rw [heq]⟩

theorem update_tokenIds : (d.update ts b).1.tokenIds = d.tokenIds ++ ts := by
  have hcheck (d : Detokenizer τ) (lo : Nat) : (d.checkStop lo).1.tokenIds = d.tokenIds := by
    unfold checkStop
    split_ifs
    · split <;> rfl
    · rfl
  rcases eq_nil_or_concat ts with rfl | ⟨init, t, rfl⟩
  · simp [update]
  · simp only [concat_eq_append, update, getLast?_concat, dropLast_concat]
    split_ifs <;> simp only [foldl_detokenize, hcheck, grow_tokenIds, append_assoc]

theorem update_offset : (d.update ts b).1.lastOutputTextOffset = d.lastOutputTextOffset := by
  have hcheck (d : Detokenizer τ) (lo : Nat) :
      (d.checkStop lo).1.lastOutputTextOffset = d.lastOutputTextOffset := by
    unfold checkStop
    split_ifs
    · split <;> rfl
    · rfl
  unfold update
  split
  · rfl
  · split_ifs <;> simp [hcheck, foldl_detokenize]

theorem update_bufferLength : (d.update ts b).1.stopBufferLength = d.stopBufferLength := by
  rw [stopBufferLength, update_params]
  rfl

end

variable {d : Detokenizer τ}

theorem ne_nil_of_update_isSome {ts : List τ} {b : Bool} (h : (d.update ts b).2.isSome) :
    ts ≠ [] := by
  rintro rfl
  simp [update] at h

theorem length_le_buffer (d : Detokenizer τ) (hb : d.params.includeStopStrInOutput = false)
    {s : Text} (hs : s ∈ d.params.stop) : s.length ≤ d.stopBufferLength + 1 := by
  have hne : d.params.stop ≠ [] := ne_nil_of_mem hs
  have hmax (l : List Text) (h : s ∈ l) : s.length ≤ (l.map length).foldr max 0 := by
    induction l with
    | nil => simp at h
    | cons x xs ih =>
      rcases mem_cons.mp h with rfl | h
      · exact le_max_left _ _
      · exact (ih h).trans (le_max_right _ _)
  have := hmax d.params.stop hs
  rw [stopBufferLength, if_pos ⟨hne, hb⟩]
  omega

/-- No stop string can reach back into the text that was sent. -/
def Held (d : Detokenizer τ) : Prop :=
  d.lastOutputTextOffset + d.stopBufferLength ≤ d.outputText.length ∨ d.lastOutputTextOffset = 0

theorem update_keeps (d : Detokenizer τ) (ts : List τ) (b : Bool) {k : Nat}
    (hk : k + d.stopBufferLength ≤ d.outputText.length ∨ k = 0) :
    k ≤ (d.update ts b).1.outputText.length ∧
      (d.update ts b).1.outputText.take k = d.outputText.take k := by
  obtain ⟨ts', -, htext⟩ := d.update_result ts b
  obtain ⟨rest, hrest⟩ := d.outputText_prefix_grow ts'
  have hle : k ≤ d.outputText.length := by omega
  have htake : (d.grow ts').outputText.take k = d.outputText.take k := by
    rw [← hrest, take_append_of_le_length hle]
  have hlen := d.text_length_mono ts'
  rw [htext, update_eq]
  cases hm : matchIn (d.grow ts').outputText (d.grow (d.minPart ts')).outputText.length
      d.params.stop with
  | none => exact ⟨hle.trans hlen, htake⟩
  | some m =>
    obtain ⟨s, i⟩ := m
    obtain ⟨l1, l2, hstop, -, hocc, hlo, -⟩ := matchIn_eq_some d.params.stop_ne_nil hm
    have hs : s ∈ d.params.stop := by simp [hstop]
    have hmin := d.text_length_mono (d.minPart ts')
    have hcut : k ≤ cut d.params (s, i) := by
      unfold cut
      split_ifs with hb
      · simp only
        omega
      · have := d.length_le_buffer (by simpa using hb) hs
        omega
    refine ⟨?_, ?_⟩
    · rw [length_take]
      exact le_min hcut (hle.trans hlen)
    · rw [take_take, min_eq_left hcut, htake]

theorem length_le_of_update_none {ts : List τ} {b : Bool} (h : (d.update ts b).2 = none) :
    d.outputText.length ≤ (d.update ts b).1.outputText.length := by
  obtain ⟨ts', hnone, htext⟩ := d.update_result ts b
  rw [htext]
  rw [h] at hnone
  have hmono := d.text_length_mono ts'
  rw [update_eq] at hnone ⊢
  cases hm : matchIn (d.grow ts').outputText (d.grow (d.minPart ts')).outputText.length
      d.params.stop with
  | none => exact hmono
  | some m =>
    rw [hm] at hnone
    cases hnone

theorem getNextOutputText_delta (d : Detokenizer τ) (finished : Bool)
    (h : d.lastOutputTextOffset ≤ d.outputText.length) :
    ∃ k, (d.getNextOutputText finished true).1 = { d with lastOutputTextOffset := k } ∧
      d.outputText.take k =
        d.outputText.take d.lastOutputTextOffset ++ (d.getNextOutputText finished true).2 ∧
      k ≤ d.outputText.length ∧ (finished = true → k = d.outputText.length) ∧
      (finished = false → k + d.stopBufferLength ≤ d.outputText.length ∨
        k = d.lastOutputTextOffset) := by
  unfold getNextOutputText
  simp only [if_true]
  set n := (d.outputText.length : Int) - ((if finished = true then 0 else d.stopBufferLength : Nat)
    : Int) with hn
  by_cases hlt : (d.lastOutputTextOffset : Int) < n
  · rw [if_pos hlt]
    refine ⟨n.toNat, rfl, ?_, ?_, ?_, ?_⟩
    · have hle : d.lastOutputTextOffset ≤ n.toNat := by omega
      conv_lhs => rw [← take_append_drop d.lastOutputTextOffset (d.outputText.take n.toNat)]
      rw [take_take, min_eq_left hle]
    · split_ifs at hn <;> omega
    · intro hf
      simp only [hf, if_true] at hn
      omega
    · intro hf
      simp only [hf, Bool.false_eq_true, if_false] at hn
      omega
  · rw [if_neg hlt]
    refine ⟨d.lastOutputTextOffset, rfl, by simp, h, fun hf => ?_, fun _ => Or.inr rfl⟩
    simp only [hf, if_true] at hn
    omega

end Detokenizer

namespace OutputStream
variable {τ ℓ : Type}

section
variable (s : RequestState τ ℓ)

def RequestState.Carries (newTokenIds : List τ) : Prop :=
  if 1 < s.streamInterval then
    s.sentTokensOffset < s.detokenizer.tokenIds.length + newTokenIds.length
  else newTokenIds ≠ []

/-- With logprobs a final output has a token, unless there is none at all. -/
def RequestState.LogprobsFit (newTokenIds : List τ) : Prop :=
  s.logprobs.isSome → s.Carries newTokenIds ∨ s.detokenizer.tokenIds ++ newTokenIds = []

def RequestState.sentTokens : Nat :=
  if s.outputKind = .delta ∧ 1 < s.streamInterval then s.sentTokensOffset
  else s.detokenizer.tokenIds.length

/-- Two request states that agree on what decides about an output. -/
structure RequestState.SameTokens (s s' : RequestState τ ℓ) : Prop where
  kind : s'.outputKind = s.outputKind
  interval : s'.streamInterval = s.streamInterval
  tokenIds : s'.detokenizer.tokenIds = s.detokenizer.tokenIds
  sent : s'.sentTokensOffset = s.sentTokensOffset

/-- What follows the first output: cumulative outputs bring the tokens of an interval, and a first
delta has a token. -/
def RequestState.Timely (newTokenIds : List τ) : Prop :=
  match s.outputKind with
  | .delta => s.streamInterval ≤ 1 ∨ s.sentTokensOffset = 0 → s.Carries newTokenIds
  | .cumulative => if s.detokenizer.tokenIds = [] then newTokenIds ≠ []
    else s.streamInterval ≤ newTokenIds.length
  | .finalOnly => True

end

namespace Stream
open RequestState

section
variable (s : Stream τ ℓ)

/-- The condition on an event: outputs are timely, and the logprobs of a final delta have a token. -/
def Sound : Event τ ℓ → Prop
  | .engine out => s.live = true →
    if out.finishReason = none then s.state.Timely out.newTokenIds
    else s.state.outputKind = .delta → s.state.LogprobsFit out.newTokenIds
  | .abort => s.live = true → s.state.outputKind = .delta → s.state.LogprobsFit []
  | .get => True

/-! Deltas -/

def texts : Text :=
  (s.received.map (fun o => o.1)).flatten ++ (s.output.map (fun o => o.text)).getD []

def tokenLists : List τ :=
  (s.received.map (fun o => o.2.1)).flatten ++ (s.output.map (fun o => o.tokenIds)).getD []

def CompletionOutput.entries (l : List ℓ) (o : CompletionOutput τ ℓ) : List ℓ :=
  (o.logprobs.map (LogprobsList.entries l)).getD []

def logprobLists : List ℓ :=
  (s.received.map (fun o => o.2.2.getD [])).flatten ++
    (s.output.map (CompletionOutput.entries (s.state.logprobs.getD []))).getD []

/-- What has left the request state is its text up to the offset and its first `m` tokens. -/
structure Sent (lp : Bool) (m : Nat) (s : Stream τ ℓ) : Prop where
  kind : s.state.outputKind = .delta
  tokenIds : s.state.detokenizer.tokenIds = s.tokens
  logprobs : s.state.logprobs = if lp then some s.tokenLogprobs else none
  length : s.tokenLogprobs.length = s.tokens.length
  le : m ≤ s.tokens.length
  offset : 1 < s.state.streamInterval → s.state.sentTokensOffset = m
  texts : s.texts = s.state.detokenizer.outputText.take s.state.detokenizer.lastOutputTextOffset
  textOffset : s.state.detokenizer.lastOutputTextOffset ≤ s.state.detokenizer.outputText.length
  tokenLists : s.tokenLists = s.tokens.take m
  logprobLists : s.logprobLists = if lp then s.tokenLogprobs.take m else []
  /-- An output that waits for the consumer has a list of its own. -/
  own : ∀ o, s.output = some o → s.live = true →
    if lp then ∃ l, o.logprobs = some (.own l) else o.logprobs = none

/-- The consumer's queue takes what `make_request_output` returns. -/
def make (ts : List τ) (fin : Option FinishReason) (stop : Option Text) :
    Except PyError (Stream τ ℓ) :=
  putAll { s with
    state := (s.state.makeRequestOutput ts fin stop).1
    live := fin.isNone } (s.state.makeRequestOutput ts fin stop).2

end

structure DeltaInv (lp : Bool) (s : Stream τ ℓ) : Prop where
  sent : Sent lp (if 1 < s.state.streamInterval then s.state.sentTokensOffset
    else s.tokens.length) s
  held : s.live = true → s.state.detokenizer.lastOutputTextOffset +
    s.state.detokenizer.stopBufferLength ≤ s.state.detokenizer.outputText.length ∨
    s.state.detokenizer.lastOutputTextOffset = 0
  done : s.live = false → s.state.detokenizer.lastOutputTextOffset =
    s.state.detokenizer.outputText.length ∧
    (1 < s.state.streamInterval → s.state.sentTokensOffset = s.tokens.length)

variable {s s' : Stream τ ℓ} {m k : Nat} {lp : Bool} {out : EngineCoreOutput τ ℓ}
  {next : CompletionOutput τ ℓ} {kind : RequestOutputKind}

theorem put_delta (lp : Bool) (next : CompletionOutput τ ℓ) (hkind : s.state.outputKind = .delta)
    (hown : ∀ o, s.output = some o →
      if lp then ∃ l, o.logprobs = some (.own l) else o.logprobs = none)
    (hnext : if lp then ∃ l, next.logprobs = some l else next.logprobs = none) :
    ∃ o n, s.put next = .ok { s with output := some o, made := n } ∧
      o.text = (s.output.map (fun o => o.text)).getD [] ++ next.text ∧
      o.tokenIds = (s.output.map (fun o => o.tokenIds)).getD [] ++ next.tokenIds ∧
      CompletionOutput.entries (s.state.logprobs.getD []) o =
        (s.output.map (CompletionOutput.entries (s.state.logprobs.getD []))).getD [] ++
          CompletionOutput.entries (s.state.logprobs.getD []) next ∧
      if lp then (∃ l, next.logprobs = some (.own l)) → ∃ l, o.logprobs = some (.own l)
        else o.logprobs = none := by
  unfold put
  cases hout : s.output with
  | none =>
    refine ⟨next, _, rfl, rfl, rfl, rfl, ?_⟩
    cases lp
    · exact hnext
    · exact id
  | some old =>
    have hold := hown old hout
    simp only [add, hkind, if_true]
    set e := CompletionOutput.entries (s.state.logprobs.getD []) next with he
    have he' : (next.logprobs.map (LogprobsList.entries (s.state.logprobs.getD []))).getD [] = e :=
      rfl
    simp only [he']
    cases lp with
    | false =>
      have hnil : e = [] := by
        rw [he, CompletionOutput.entries, hnext]
        rfl
      simp only [hnil]
      refine ⟨_, _, rfl, rfl, rfl, ?_, hold⟩
      simp [CompletionOutput.entries]
    | true =>
      obtain ⟨l, hl⟩ := hold
      by_cases hnil : e = []
      · simp only [hnil]
        refine ⟨_, _, rfl, rfl, rfl, ?_, fun _ => ⟨l, hl⟩⟩
        simp [CompletionOutput.entries]
      · simp only [hnil]
        simp [CompletionOutput.entries, hl, LogprobsList.entries]

theorem newCompletionOutput_delta {s : RequestState τ ℓ} (hkind : s.outputKind = .delta)
    (h : s.detokenizer.lastOutputTextOffset ≤ s.detokenizer.outputText.length) (ts : List τ)
    (finishReason : Option FinishReason) (stopReason : Option Text) :
    ∃ k o, s.newCompletionOutput ts finishReason stopReason =
        ({ s with detokenizer := { s.detokenizer with lastOutputTextOffset := k } }, o) ∧
      o.tokenIds = ts ∧
      o.logprobs = s.logprobs.map (fun l => if l = [] then .shared
        else .own (l.drop (pyBound l.length (-(ts.length : Int))))) ∧
      s.detokenizer.outputText.take k =
        s.detokenizer.outputText.take s.detokenizer.lastOutputTextOffset ++ o.text ∧
      k ≤ s.detokenizer.outputText.length ∧
      (finishReason.isSome = true → k = s.detokenizer.outputText.length) ∧
      (finishReason.isSome = false → k + s.detokenizer.stopBufferLength ≤
        s.detokenizer.outputText.length ∨ k = s.detokenizer.lastOutputTextOffset) := by
  obtain ⟨k, hd, htext, hk, hfin, hnot⟩ :=
    s.detokenizer.getNextOutputText_delta finishReason.isSome h
  have hdelta : decide (s.outputKind = .delta) = true := by simp [hkind]
  refine ⟨k, (s.newCompletionOutput ts finishReason stopReason).2, ?_, ?_, ?_, ?_, hk, hfin, hnot⟩
  · simp only [newCompletionOutput, hdelta, hd]
  · simp only [newCompletionOutput, hdelta, if_true]
  · simp only [newCompletionOutput, hdelta, if_true, true_and, ite_not]
  · simp only [newCompletionOutput, hdelta]
    exact htext

theorem drop_pyBound {l : List ℓ} {n : Nat} (hl : l.length = n) (hm : m < n) :
    l.drop (pyBound l.length (-((n - m : Nat) : Int))) = l.drop m := by
  congr 1
  unfold pyBound
  split_ifs <;> omega

theorem emit {q : Nat} (h : Sent lp m s) (hlive : s.live = true)
    (finishReason : Option FinishReason) (stopReason : Option Text)
    (hq : 1 < s.state.streamInterval → q = s.tokens.length)
    (hfit : lp = true → m < s.tokens.length ∨ s.tokens = [])
    (hnonempty : lp = true → finishReason = none → m < s.tokens.length)
    (hheld : finishReason = none → s.state.detokenizer.Held) :
    ∃ s', put { s with
        state := ({ s.state with sentTokensOffset := q }.newCompletionOutput (s.tokens.drop m)
          finishReason stopReason).1
        live := finishReason.isNone } ({ s.state with sentTokensOffset := q }.newCompletionOutput
          (s.tokens.drop m) finishReason stopReason).2 = .ok s' ∧ DeltaInv lp s' := by
  obtain ⟨k, o, heq, hids, hlogs, htext, hk, hfin, hnot⟩ := newCompletionOutput_delta
    (s := { s.state with sentTokensOffset := q }) h.kind h.textOffset (s.tokens.drop m)
    finishReason stopReason
  rw [heq]
  -- the logprobs of the delta are those of its tokens
  have hown : lp = true → m < s.tokens.length →
      o.logprobs = some (.own (s.tokenLogprobs.drop m)) := by
    intro hlp hm
    have hne : s.tokenLogprobs ≠ [] := by
      rw [← length_pos_iff, h.length]
      omega
    rw [hlogs, h.logprobs, if_pos hlp, Option.map_some, if_neg hne, length_drop,
      drop_pyBound h.length hm]
  have hentries : CompletionOutput.entries (s.state.logprobs.getD []) o =
      if lp then s.tokenLogprobs.drop m else [] := by
    cases hb : lp with
    | false =>
      rw [CompletionOutput.entries, hlogs, h.logprobs, hb]
      rfl
    | true =>
      rcases hfit hb with hm | hnil
      · rw [CompletionOutput.entries, hown hb hm]
        rfl
      have hnil' : s.tokenLogprobs = [] := by
        rw [← length_eq_zero_iff, h.length, hnil]
        rfl
      rw [CompletionOutput.entries, hlogs, h.logprobs, hb]
      simp [hnil', LogprobsList.entries]
  obtain ⟨o', n, hput, ho1, ho2, ho3, ho4⟩ := put_delta lp
    (s := { s with
      state := { s.state with
        sentTokensOffset := q
        detokenizer := { s.state.detokenizer with lastOutputTextOffset := k } }
      live := finishReason.isNone }) o
    h.kind (fun o ho => h.own o ho hlive) (by
      rw [hlogs, h.logprobs]
      cases lp
      · rfl
      · exact ⟨_, rfl⟩)
  refine ⟨_, hput, ?_⟩
  have htokens : (if 1 < s.state.streamInterval then q else s.tokens.length) = s.tokens.length := by
    split_ifs with hint
    · exact hq hint
    · rfl
  refine ⟨⟨h.kind, h.tokenIds, h.logprobs, h.length, ?_, ?_, ?_, hk, ?_, ?_, ?_⟩, ?_, ?_⟩
  · exact htokens.le
  · intro hint
    exact (hq hint).trans htokens.symm
  · have := h.texts
    simp only [texts] at this ⊢
    rw [htext, ← this, Option.map_some, Option.getD_some, ho1, append_assoc]
  · have := h.tokenLists
    simp only [tokenLists] at this ⊢
    rw [htokens, Option.map_some, Option.getD_some, ho2, ← append_assoc, this, hids,
      take_append_drop, take_of_length_le le_rfl]
  · have := h.logprobLists
    simp only [logprobLists] at this ⊢
    rw [Option.map_some, Option.getD_some, ho3, ← append_assoc, this, hentries, htokens]
    cases lp with
    | false => rfl
    | true =>
      simp only [if_true]
      rw [take_append_drop, take_of_length_le h.length.le]
  · intro o'' ho'' hl
    obtain rfl := Option.some.inj ho''
    cases hb : lp with
    | false => simpa [hb] using ho4
    | true =>
      simp only [hb] at ho4 ⊢
      have hnone : finishReason = none := by simpa using hl
      exact ho4 ⟨_, hown hb (hnonempty hb hnone)⟩
  · intro hl
    have hnone : finishReason = none := by simpa using hl
    rcases hnot (by simp [hnone]) with hle | hle
    · exact .inl hle
    · simp only [hle]
      exact hheld hnone
  · intro hl
    have hsome : finishReason.isSome = true := by
      cases finishReason
      · simp at hl
      · rfl
    exact ⟨hfin hsome, hq⟩

def updated (s : Stream τ ℓ) (out : EngineCoreOutput τ ℓ) : Stream τ ℓ :=
  { s with
    state := { s.state with
      detokenizer := (s.state.detokenizer.update out.newTokenIds (out.finishReason = some .stop)).1
      logprobs := s.state.logprobs.map (fun l => l ++ out.newLogprobs) }
    tokens := s.tokens ++ out.newTokenIds
    tokenLogprobs := s.tokenLogprobs ++ out.newLogprobs }

theorem step_engine (hlive : s.live = true) : s.step (.engine out) =
    let u := s.state.detokenizer.update out.newTokenIds (out.finishReason = some .stop)
    (s.updated out).make out.newTokenIds
      (if u.2.isSome then some .stop else out.finishReason) u.2 := by
  simp only [step, hlive]
  rfl

theorem step_abort (hlive : s.live = true) : s.step .abort = s.make [] (some .abort) none := by
  simp only [step, hlive]
  rfl

theorem DeltaInv.updated (h : DeltaInv lp s) (hlive : s.live = true) (out : EngineCoreOutput τ ℓ) :
    Sent lp (if 1 < s.state.streamInterval then s.state.sentTokensOffset else s.tokens.length)
      (s.updated out) := by
  have hs := h.sent
  obtain ⟨hoff, hkeep⟩ := s.state.detokenizer.update_keeps out.newTokenIds
    (out.finishReason = some .stop) (h.held hlive)
  refine ⟨hs.kind, ?_, ?_, ?_, ?_, hs.offset, ?_, ?_, ?_, ?_, hs.own⟩
  · simp only [Stream.updated, Detokenizer.update_tokenIds, hs.tokenIds]
  · simp only [Stream.updated, hs.logprobs]
    cases lp <;> rfl
  · simp [Stream.updated, hs.length, out.length_eq]
  · simp only [Stream.updated, length_append]
    exact hs.le.trans (Nat.le_add_right _ _)
  · have := hs.texts
    simp only [Stream.updated, Stream.texts, Detokenizer.update_offset] at this ⊢
    rw [this, hkeep]
  · simp only [Stream.updated, Detokenizer.update_offset]
    exact hoff
  · have := hs.tokenLists
    simp only [Stream.updated, Stream.tokenLists] at this ⊢
    rw [this, take_append_of_le_length hs.le]
  have hl := hs.logprobLists
  -- an output that waits is not changed with the list of the processor
  have hpending : s.output.map (CompletionOutput.entries ((s.updated out).state.logprobs.getD []))
      = s.output.map (CompletionOutput.entries (s.state.logprobs.getD [])) := by
    cases hout : s.output with
    | none => rfl
    | some o =>
      have hown := hs.own o hout hlive
      cases lp with
      | false =>
        simp only [Bool.false_eq_true, if_false] at hown
        simp [CompletionOutput.entries, hown]
      | true =>
        obtain ⟨l, hown⟩ := hown
        simp [CompletionOutput.entries, hown, LogprobsList.entries]
  have hout : (s.updated out).output = s.output := rfl
  simp only [Stream.logprobLists] at hl ⊢
  rw [hout, hpending]
  simp only [Stream.updated]
  rw [hl]
  cases lp with
  | false => rfl
  | true => rw [take_append_of_le_length (by rw [hs.length]; exact hs.le)]

/-- An output is due, although the stream has an interval. -/
abbrev Due (s : RequestState τ ℓ) (fin : Option FinishReason) : Prop :=
  fin.isSome = true ∨ s.sentTokensOffset = 0 ∨
    s.sentTokensOffset + s.streamInterval ≤ s.detokenizer.tokenIds.length

theorem makeRequestOutput_delta {s : RequestState τ ℓ} (hkind : s.outputKind = .delta)
    (ts : List τ) (finishReason : Option FinishReason) (stopReason : Option Text) :
    s.makeRequestOutput ts finishReason stopReason =
      if 1 < s.streamInterval then
        if Due s finishReason then
          Prod.map id some ({ s with
            sentTokensOffset := s.detokenizer.tokenIds.length }.newCompletionOutput
              (s.detokenizer.tokenIds.drop s.sentTokensOffset) finishReason stopReason)
        else (s, none)
      else Prod.map id some (s.newCompletionOutput ts finishReason stopReason) := by
  have hfinal : ¬ (finishReason.isSome = false ∧ s.outputKind = .finalOnly) := by
    rw [hkind]
    simp
  unfold makeRequestOutput
  rw [if_neg hfinal]
  by_cases hint : 1 < s.streamInterval
  · simp only
    rw [if_pos hkind]
    rfl
  · rw [if_neg hint, if_neg hint]
    rfl

theorem make_delta (h : Sent lp m s) (hlive : s.live = true) (newTokenIds : List τ)
    (finishReason : Option FinishReason) (stopReason : Option Text)
    (hm : ¬ 1 < s.state.streamInterval → newTokenIds = s.tokens.drop m)
    (hfit : lp = true → s.state.streamInterval ≤ 1 ∨ finishReason.isSome = true ∨
      s.state.sentTokensOffset = 0 →
      m < s.tokens.length ∨ finishReason.isSome = true ∧ s.tokens = [])
    (hheld : finishReason = none → s.state.detokenizer.Held) :
    ∃ s', s.make newTokenIds finishReason stopReason = .ok s' ∧ DeltaInv lp s' := by
  rw [make, makeRequestOutput_delta h.kind]
  by_cases hint : 1 < s.state.streamInterval
  · rw [if_pos hint]
    have hsent := h.offset hint
    have hlen : s.state.detokenizer.tokenIds.length = s.tokens.length := by rw [h.tokenIds]
    by_cases hmake : Due s.state finishReason
    · rw [if_pos hmake, h.tokenIds, hsent]
      have hcase (hb : lp = true) : m < s.tokens.length ∨
          finishReason.isSome = true ∧ s.tokens = [] := by
        rcases hmake with hf | hz | hn
        · exact hfit hb (.inr (.inl hf))
        · exact hfit hb (.inr (.inr hz))
        · exact .inl (by omega)
      refine emit h hlive finishReason stopReason (fun _ => rfl) (fun hb => ?_) (fun hb hn => ?_)
        hheld
      · exact (hcase hb).imp_right And.right
      · refine (hcase hb).resolve_right ?_
        simp [hn]
    rw [if_neg hmake]
    push Not at hmake
    have hnone : finishReason = none := by simpa using hmake.1
    refine ⟨_, rfl, ⟨?_, fun _ => hheld hnone, fun hl => ?_⟩⟩
    · rw [if_pos hint, hsent]
      exact ⟨h.kind, h.tokenIds, h.logprobs, h.length, h.le, h.offset, h.texts, h.textOffset,
        h.tokenLists, h.logprobLists, fun o ho _ => h.own o ho hlive⟩
    · simp [hnone] at hl
  · rw [if_neg hint, hm hint]
    have hcase (hb : lp = true) := hfit hb (Or.inl (by omega))
    refine emit h hlive finishReason stopReason (fun hlt => absurd hlt hint) (fun hb => ?_)
      (fun hb hn => ?_) hheld
    · exact (hcase hb).imp_right And.right
    · refine (hcase hb).resolve_right ?_
      simp [hn]

theorem DeltaInv.engine (h : DeltaInv lp s) (hsound : s.Sound (.engine out)) :
    ∃ s', s.step (.engine out) = .ok s' ∧ DeltaInv lp s' := by
  by_cases hlive : s.live = true
  · have hs := h.sent
    have hu := h.updated hlive out
    set d := s.state.detokenizer with hd
    set u := d.update out.newTokenIds (out.finishReason = some .stop) with hu'
    have hcarry : s.state.Carries out.newTokenIds →
        (if 1 < s.state.streamInterval then s.state.sentTokensOffset else s.tokens.length) <
          (s.updated out).tokens.length := by
      intro hc
      simp only [Stream.updated, length_append]
      unfold Carries at hc
      split_ifs at hc ⊢ with hint
      · rw [← hs.tokenIds]
        exact hc
      · have := length_pos_iff.mpr hc
        omega
    have hlp : lp = true → s.state.logprobs.isSome = true := by
      intro hb
      rw [hs.logprobs, if_pos hb]
      rfl
    have hmake := make_delta hu hlive out.newTokenIds
      (if u.2.isSome then some .stop else out.finishReason) u.2 (fun hint => ?_)
      (fun hb hcase => ?_) (fun hnone => ?_)
    · rw [step_engine hlive]
      exact hmake
    · have hint' : ¬ 1 < s.state.streamInterval := hint
      simp [Stream.updated, hint']
    · have hkind : s.state.outputKind = .delta := hs.kind
      by_cases hstop : u.2.isSome = true
      · -- a stop string is found in new tokens
        have hne := Detokenizer.ne_nil_of_update_isSome hstop
        refine .inl (hcarry ?_)
        unfold Carries
        have := length_pos_iff.mpr hne
        split_ifs with hint
        · have h1 := hs.offset hint
          have h2 := hs.le
          rw [hs.tokenIds]
          omega
        · exact hne
      simp only [if_neg hstop] at hcase ⊢
      have hsnd := hsound hlive
      cases hf : out.finishReason with
      | none =>
        rw [hf] at hcase
        rw [if_pos hf, Timely, hkind] at hsnd
        refine .inl (hcarry (hsnd ?_))
        rcases hcase with h1 | h1 | h1
        · exact .inl h1
        · simp at h1
        · exact .inr h1
      | some r =>
        rw [if_neg (by simp [hf])] at hsnd
        rcases hsnd hkind (hlp hb) with hc | hnil
        · exact .inl (hcarry hc)
        · refine .inr ⟨rfl, ?_⟩
          rw [hs.tokenIds] at hnil
          exact hnil
    · have hnostop : u.2 = none := by
        by_contra hne
        rw [if_pos (Option.isSome_iff_ne_none.mpr hne)] at hnone
        cases hnone
      have hmono := Detokenizer.length_le_of_update_none hnostop
      simp only [Stream.updated, Detokenizer.Held, Detokenizer.update_offset,
        Detokenizer.update_bufferLength]
      rcases h.held hlive with hl | hl
      · exact .inl (hl.trans hmono)
      · exact .inr hl
  · refine ⟨s, ?_, h⟩
    simp [step, hlive]

theorem DeltaInv.abort (h : DeltaInv lp s) (hsound : s.Sound .abort) :
    ∃ s', s.step .abort = .ok s' ∧ DeltaInv lp s' := by
  by_cases hlive : s.live = true
  · have hs := h.sent
    have hmake := make_delta hs hlive [] (some .abort) none (fun hint => ?_) (fun hb _ => ?_)
      (fun hnone => by cases hnone)
    · rw [step_abort hlive]
      exact hmake
    · simp [hint]
    · have hsome : s.state.logprobs.isSome = true := by
        rw [hs.logprobs, if_pos hb]
        rfl
      rcases hsound hlive hs.kind hsome with hc | hnil
      · unfold Carries at hc
        split_ifs at hc ⊢ with hint
        · left
          rw [← hs.tokenIds]
          exact hc
        · exact absurd rfl hc
      · rw [hs.tokenIds, append_nil] at hnil
        exact .inr ⟨rfl, hnil⟩
  · refine ⟨s, ?_, h⟩
    simp [step, hlive]

theorem DeltaInv.get (h : DeltaInv lp s) : DeltaInv lp s.get := by
  unfold Stream.get
  cases hout : s.output with
  | none => exact h
  | some o =>
    have hs := h.sent
    refine ⟨⟨hs.kind, hs.tokenIds, hs.logprobs, hs.length, hs.le, hs.offset, ?_, hs.textOffset,
      ?_, ?_, by simp⟩, h.held, h.done⟩
    · have := hs.texts
      simp only [texts, hout] at this ⊢
      simpa using this
    · have := hs.tokenLists
      simp only [tokenLists, hout] at this ⊢
      simpa using this
    · have := hs.logprobLists
      simp only [logprobLists, hout] at this ⊢
      simpa [CompletionOutput.entries] using this

/-! Intervals -/

/-- Consecutive outputs that are not final are at least `k` tokens apart. -/
def Spaced (k : Nat) (made : List (Nat × Bool)) : Prop :=
  made.IsChain (fun a b => a.2 = false → b.2 = false → a.1 + k ≤ b.1)

theorem spaced_concat {made : List (Nat × Bool)} (h : Spaced k made) {n : Nat} {f : Bool}
    (hn : f = false → ∀ a, made.getLast? = some a → a.2 = false → a.1 + k ≤ n) :
    Spaced k (made ++ [(n, f)]) := by
  refine isChain_append.mpr ⟨h, isChain_singleton _, fun a ha b hb => ?_⟩
  obtain rfl : b = (n, f) := by simpa [eq_comm] using hb
  intro h1 h2
  exact hn h2 a ha h1

structure SpacedInv (s : Stream τ ℓ) : Prop where
  kind : s.state.outputKind ≠ .finalOnly
  spaced : Spaced s.state.streamInterval s.made
  unset : s.state.outputKind = .cumulative → s.state.sentTokensOffset = 0
  first : s.live = true → s.made = [] → s.state.sentTokens = 0
  last : s.live = true → ∀ a, s.made.getLast? = some a → a.1 = s.state.sentTokens ∧ 0 < a.1

theorem newCompletionOutput_same (s : RequestState τ ℓ) (ts : List τ)
    (finishReason : Option FinishReason) (stopReason : Option Text) :
    s.SameTokens (s.newCompletionOutput ts finishReason stopReason).1 := by
  refine ⟨rfl, rfl, ?_, rfl⟩
  simp only [newCompletionOutput, Detokenizer.getNextOutputText]
  split_ifs <;> rfl

theorem add_same {old : CompletionOutput τ ℓ} (h : s.add old next = .ok s') :
    s.state.SameTokens s'.state ∧ s'.live = s.live ∧ s'.made = s.made := by
  unfold add at h
  simp only at h
  split_ifs at h
  · cases h
    exact ⟨⟨rfl, rfl, rfl, rfl⟩, rfl, rfl⟩
  · split at h
    · cases h
    · cases h
      exact ⟨⟨rfl, rfl, rfl, rfl⟩, rfl, rfl⟩
    · cases h
      exact ⟨⟨rfl, rfl, rfl, rfl⟩, rfl, rfl⟩
  · cases h
    exact ⟨⟨rfl, rfl, rfl, rfl⟩, rfl, rfl⟩

theorem put_same (h : s.put next = .ok s') :
    s.state.SameTokens s'.state ∧ s'.live = s.live ∧
      s'.made = s.made ++ [(s.state.detokenizer.tokenIds.length, next.finishReason.isSome)] := by
  unfold put at h
  simp only at h
  split at h
  · cases h
    exact ⟨⟨rfl, rfl, rfl, rfl⟩, rfl, rfl⟩
  · exact add_same h

theorem make_cases {s : RequestState τ ℓ} (hkind : s.outputKind ≠ .finalOnly)
    (hunset : s.outputKind = .cumulative → s.sentTokensOffset = 0) (ts : List τ)
    (finishReason : Option FinishReason) (stopReason : Option Text) :
    (∃ q ts', s.makeRequestOutput ts finishReason stopReason = Prod.map id some
        ({ s with sentTokensOffset := q }.newCompletionOutput ts' finishReason stopReason) ∧
      if s.outputKind = .delta ∧ 1 < s.streamInterval then
        q = s.detokenizer.tokenIds.length ∧ Due s finishReason
      else q = s.sentTokensOffset) ∨
    s.makeRequestOutput ts finishReason stopReason = (s, none) ∧ s.outputKind = .delta ∧
      1 < s.streamInterval ∧ finishReason = none := by
  by_cases hk : s.outputKind = .delta
  · rw [makeRequestOutput_delta hk]
    by_cases hint : 1 < s.streamInterval
    · rw [if_pos hint]
      by_cases hmake : Due s finishReason
      · rw [if_pos hmake]
        refine Or.inl ⟨_, _, rfl, ?_⟩
        rw [if_pos ⟨hk, hint⟩]
        exact ⟨rfl, hmake⟩
      · rw [if_neg hmake]
        push Not at hmake
        exact Or.inr ⟨rfl, hk, hint, by simpa using hmake.1⟩
    · rw [if_neg hint]
      refine Or.inl ⟨s.sentTokensOffset, ts, rfl, ?_⟩
      rw [if_neg (by simp [hint])]
  · have hcum : s.outputKind = .cumulative := by
      cases h : s.outputKind
      · rfl
      · exact absurd h hk
      · exact absurd h hkind
    refine .inl ⟨s.sentTokensOffset, ts, ?_, by rw [if_neg (by simp [hk])]⟩
    have hz := hunset hcum
    unfold makeRequestOutput
    rw [if_neg (by simp [hcum])]
    by_cases hint : s.streamInterval > 1
    · rw [if_pos hint]
      rw [if_pos (.inr (.inl hz)), if_neg hk]
      rfl
    · rw [if_neg hint]
      rfl

theorem SpacedInv.make (s1 : Stream τ ℓ) (h : SpacedInv s) (hlive : s.live = true)
    {newTokenIds : List τ} (hkind : s1.state.outputKind = s.state.outputKind)
    (hint : s1.state.streamInterval = s.state.streamInterval)
    (hsent : s1.state.sentTokensOffset = s.state.sentTokensOffset)
    (hids : s1.state.detokenizer.tokenIds = s.state.detokenizer.tokenIds ++ newTokenIds)
    (hmade : s1.made = s.made) {finishReason : Option FinishReason} {stopReason : Option Text}
    (htimely : finishReason = none → s.state.Timely newTokenIds)
    (he : s1.make newTokenIds finishReason stopReason = .ok s') : SpacedInv s' := by
  have hlen : s1.state.detokenizer.tokenIds.length =
      s.state.detokenizer.tokenIds.length + newTokenIds.length := by rw [hids, length_append]
  rcases make_cases (s := s1.state) (by rw [hkind]; exact h.kind)
    (by rw [hkind, hsent]; exact h.unset) newTokenIds finishReason stopReason with
    ⟨q, ts', hmake, hq⟩ | ⟨hmake, hdelta, hlt, hnone⟩
  · rw [Stream.make, hmake] at he
    have hsame := newCompletionOutput_same { s1.state with sentTokensOffset := q } ts'
      finishReason stopReason
    obtain ⟨hput, hl, hm⟩ := put_same he
    simp only [Prod.map_fst, id_eq, hmade] at hput hl hm
    have hk' : s'.state.outputKind = s.state.outputKind := (hput.kind.trans hsame.kind).trans hkind
    have hi' : s'.state.streamInterval = s.state.streamInterval :=
      (hput.interval.trans hsame.interval).trans hint
    have ht' : s'.state.detokenizer.tokenIds = s1.state.detokenizer.tokenIds :=
      hput.tokenIds.trans hsame.tokenIds
    have hs' : s'.state.sentTokensOffset = q := hput.sent.trans hsame.sent
    rw [hsame.tokenIds] at hm
    rw [hkind, hint, hsent] at hq
    -- what a new output that is not final needs
    have hnew : finishReason = none →
        0 < s1.state.detokenizer.tokenIds.length ∧ (0 < s.state.sentTokens →
          s.state.sentTokens + s.state.streamInterval ≤ s1.state.detokenizer.tokenIds.length) := by
      intro hnone
      have htime := htimely hnone
      unfold Timely at htime
      unfold sentTokens
      cases hk : s.state.outputKind with
      | finalOnly => exact absurd hk h.kind
      | cumulative =>
        rw [hk] at htime
        simp only [reduceCtorEq, false_and, if_false] at htime ⊢
        by_cases hnil : s.state.detokenizer.tokenIds = []
        · rw [if_pos hnil] at htime
          have := length_pos_iff.mpr htime
          rw [hnil]
          simp
          omega
        · rw [if_neg hnil] at htime
          have := length_pos_iff.mpr hnil
          omega
      | delta =>
        rw [hk] at htime
        unfold Carries at htime
        simp only [true_and]
        by_cases hlt : 1 < s.state.streamInterval
        · rw [if_pos ⟨hk, hlt⟩, hnone] at hq
          simp only [if_pos hlt] at htime ⊢
          rcases hq.2 with hf | hz | hn
          · simp at hf
          · omega
          · omega
        · simp only [if_neg hlt] at htime ⊢
          have := length_pos_iff.mpr (htime (.inl (by omega)))
          omega
    have hnone (hlive' : s'.live = true) : finishReason = none := by
      rw [hl] at hlive'
      simpa using hlive'
    refine ⟨by rw [hk']; exact h.kind, ?_, fun hc => ?_, fun _ hm' => ?_, fun hlive' a ha => ?_⟩
    · rw [hm, hi']
      refine spaced_concat h.spaced fun hf a ha _ => ?_
      have hnone' : finishReason = none := by simpa using hf
      obtain ⟨h1, h2⟩ := h.last hlive a ha
      rw [h1] at h2 ⊢
      exact (hnew hnone').2 h2
    · rw [hk'] at hc
      rw [hc] at hq
      rw [hs', hq]
      exact h.unset hc
    · rw [hm] at hm'
      simp at hm'
    · rw [hm, getLast?_concat] at ha
      cases ha
      refine ⟨?_, (hnew (hnone hlive')).1⟩
      unfold sentTokens
      rw [hk', hi', hs', ht']
      split_ifs with hc
      · rw [if_pos hc] at hq
        exact hq.1.symm
      · rfl
  · rw [Stream.make, hmake] at he
    cases he
    have hst : s1.state.sentTokens = s.state.sentTokens := by
      unfold sentTokens
      rw [if_pos ⟨hdelta, hlt⟩, if_pos ⟨hkind ▸ hdelta, hint ▸ hlt⟩, hsent]
    refine ⟨by rw [hkind]; exact h.kind, by rw [hint, hmade]; exact h.spaced, ?_, ?_, ?_⟩
    · rw [hkind, hsent]
      exact h.unset
    · intro _ hm
      rw [hmade] at hm
      exact hst.trans (h.first hlive hm)
    · intro _ a ha
      rw [hmade] at ha
      obtain ⟨h1, h2⟩ := h.last hlive a ha
      exact ⟨h1.trans hst.symm, h2⟩

/-! Runs -/

theorem makeRequestOutput_config (s : RequestState τ ℓ) (ts : List τ)
    (finishReason : Option FinishReason) (stopReason : Option Text) :
    (s.makeRequestOutput ts finishReason stopReason).1.outputKind = s.outputKind ∧
      (s.makeRequestOutput ts finishReason stopReason).1.streamInterval = s.streamInterval := by
  unfold makeRequestOutput
  simp only
  split_ifs <;> exact ⟨rfl, rfl⟩

theorem putAll_config {o : Option (CompletionOutput τ ℓ)} (h : s.putAll o = .ok s') :
    s'.state.outputKind = s.state.outputKind ∧
      s'.state.streamInterval = s.state.streamInterval := by
  cases o with
  | none =>
    cases h
    exact ⟨rfl, rfl⟩
  | some next =>
    have hsame := (put_same h).1
    exact ⟨hsame.kind, hsame.interval⟩

theorem putAll_ok (hkind : s.state.outputKind ≠ .delta) (o : Option (CompletionOutput τ ℓ)) :
    ∃ s', s.putAll o = .ok s' := by
  cases o with
  | none => exact ⟨_, rfl⟩
  | some next =>
    unfold putAll put
    cases s.output with
    | none => exact ⟨_, rfl⟩
    | some old =>
      simp only [add, if_neg hkind]
      exact ⟨_, rfl⟩

structure RunInv (kind : RequestOutputKind) (k : Nat) (lp : Bool) (s : Stream τ ℓ) : Prop where
  outputKind : s.state.outputKind = kind
  interval : s.state.streamInterval = k
  delta : kind = .delta → DeltaInv lp s
  spaced : kind ≠ .finalOnly → SpacedInv s

section
variable (h : RunInv kind k lp s)
include h

theorem RunInv.make (s1 : Stream τ ℓ) {ev : Event τ ℓ} {ts : List τ}
    {fin : Option FinishReason} {stop : Option Text}
    (hkind : s1.state.outputKind = s.state.outputKind)
    (hint : s1.state.streamInterval = s.state.streamInterval)
    (hstep : s.step ev = s1.make ts fin stop)
    (hdelta : kind = .delta → ∃ s', s.step ev = .ok s' ∧ DeltaInv lp s')
    (hspaced : kind ≠ .finalOnly → ∀ s', s.step ev = .ok s' → SpacedInv s') :
    ∃ s', s.step ev = .ok s' ∧ RunInv kind k lp s' := by
  have hconfig := makeRequestOutput_config s1.state ts fin stop
  rw [hkind, hint, h.outputKind, h.interval] at hconfig
  obtain ⟨s', he, hinv⟩ : ∃ s', s.step ev = .ok s' ∧ (kind = .delta → DeltaInv lp s') := by
    by_cases hk : kind = .delta
    · obtain ⟨s', he, hinv⟩ := hdelta hk
      exact ⟨s', he, fun _ => hinv⟩
    rw [hstep]
    obtain ⟨s', he⟩ : ∃ s', s1.make ts fin stop = .ok s' := putAll_ok (hconfig.1 ▸ hk) _
    exact ⟨s', he, fun hd => absurd hd hk⟩
  obtain ⟨h1, h2⟩ := putAll_config (hstep.symm.trans he)
  exact ⟨s', he, h1.trans hconfig.1, h2.trans hconfig.2, hinv, fun hk => hspaced hk s' he⟩

theorem RunInv.engine (hsound : s.Sound (.engine out)) :
    ∃ s', s.step (.engine out) = .ok s' ∧ RunInv kind k lp s' := by
  by_cases hlive : s.live = true
  · have hstep : s.step (.engine out) = _ := step_engine hlive
    refine h.make (s.updated out) rfl rfl hstep (fun hk => (h.delta hk).engine hsound)
      (fun hk s' he => SpacedInv.make (s.updated out) (h.spaced hk) hlive rfl rfl rfl
        (Detokenizer.update_tokenIds ..) rfl (fun hnone => ?_) (hstep.symm.trans he))
    have hnone' : out.finishReason = none := by
      split_ifs at hnone
      exact hnone
    have := hsound hlive
    rwa [if_pos hnone'] at this
  · refine ⟨s, ?_, h⟩
    simp [step, hlive]

theorem RunInv.abort (hsound : s.Sound .abort) :
    ∃ s', s.step .abort = .ok s' ∧ RunInv kind k lp s' := by
  by_cases hlive : s.live = true
  · have hstep := step_abort hlive
    exact h.make s rfl rfl hstep (fun hk => (h.delta hk).abort hsound)
      (fun hk s' he => SpacedInv.make s (h.spaced hk) hlive rfl rfl rfl (by simp) rfl
        (fun hnone => by cases hnone) (hstep.symm.trans he))
  · refine ⟨s, ?_, h⟩
    simp [step, hlive]

theorem RunInv.get : RunInv kind k lp s.get := by
  have hsame : s.get.state = s.state ∧ s.get.made = s.made ∧ s.get.live = s.live := by
    unfold Stream.get
    split <;> exact ⟨rfl, rfl, rfl⟩
  obtain ⟨h1, h2, h3⟩ := hsame
  refine ⟨h1 ▸ h.outputKind, h1 ▸ h.interval, fun hk => (h.delta hk).get, fun hk => ?_⟩
  obtain ⟨hkind, hspaced, hunset, hfirst, hlast⟩ := h.spaced hk
  constructor <;> rw [h1] <;> first | rw [h2] | skip
  all_goals first | assumption | (rw [h3]; assumption)

end

theorem init_runInv (kind : RequestOutputKind) (k : Nat) (decodeNext : List τ → τ → Text)
    (params : StopParams) (lp : Bool) :
    RunInv kind k lp (init kind k decodeNext params lp : Stream τ ℓ) := by
  refine ⟨rfl, rfl, fun hk => ⟨?_, fun _ => .inr rfl, fun h => by cases h⟩, fun hk =>
    ⟨hk, isChain_nil, fun _ => rfl, fun _ _ => ?_, fun _ a ha => by cases ha⟩⟩
  · constructor <;> cases lp <;> simp [init, texts, tokenLists, logprobLists, Detokenizer.init, hk]
  · exact ite_self _

theorem RunInv.step {e : Event τ ℓ} (h : RunInv kind k lp s) (hsound : s.Sound e) :
    ∃ s', s.step e = .ok s' ∧ RunInv kind k lp s' := by
  cases e with
  | engine out => exact h.engine hsound
  | abort => exact h.abort hsound
  | get => exact ⟨_, rfl, h.get⟩

/-- The outputs that the consumer got make up the text, the tokens and the logprobs. -/
structure Delivered (s : Stream τ ℓ) : Prop where
  text : (s.received.map (fun o => o.1)).flatten = s.state.detokenizer.outputText
  tokenIds : (s.received.map (fun o => o.2.1)).flatten = s.state.detokenizer.tokenIds
  logprobs : (s.received.map (fun o => o.2.2.getD [])).flatten = s.state.logprobs.getD []

theorem DeltaInv.delivered (h : DeltaInv lp s) (hlive : s.live = false) (hout : s.output = none) :
    s.Delivered := by
  obtain ⟨hoffset, hsent⟩ := h.done hlive
  have hm : (if 1 < s.state.streamInterval then s.state.sentTokensOffset
      else s.tokens.length) = s.tokens.length := by
    split_ifs with hint
    · exact hsent hint
    · rfl
  have hs := h.sent
  rw [hm] at hs
  refine ⟨?_, ?_, ?_⟩
  · simpa [texts, hout, hoffset] using hs.texts
  · simpa [tokenLists, hout, hs.tokenIds] using hs.tokenLists
  · have hl := hs.logprobLists
    rw [← hs.length] at hl
    rw [hs.logprobs]
    cases lp <;> simpa [logprobLists, hout] using hl

theorem DeltaInv.received_initial (h : DeltaInv lp s) :
    (s.received.map (fun o => o.1)).flatten <+: s.state.detokenizer.outputText :=
  calc (s.received.map (fun o => o.1)).flatten <+: s.texts := prefix_append _ _
    _ = s.state.detokenizer.outputText.take s.state.detokenizer.lastOutputTextOffset := h.sent.texts
    _ <+: s.state.detokenizer.outputText := take_prefix _ _

/-- Every run whose events are timely and whose final deltas have a token raises nowhere, delivers
everything once and keeps the interval. -/
theorem run_streams (kind : RequestOutputKind) (k : Nat) (decodeNext : List τ → τ → Text)
    (params : StopParams) (lp : Bool) (events : List (Event τ ℓ))
    (hsound : Trace.Meets step Sound (init kind k decodeNext params lp) events) :
    ∃ s, Trace.run step (init kind k decodeNext params lp) events = .ok s ∧
      (kind = .delta →
        (s.received.map (fun o => o.1)).flatten <+: s.state.detokenizer.outputText ∧
        s.state.detokenizer.tokenIds = s.tokens ∧
        s.state.logprobs = (if lp then some s.tokenLogprobs else none) ∧
        (s.live = false → s.output = none → s.Delivered)) ∧
      (kind ≠ .finalOnly → Spaced k s.made) := by
  obtain ⟨s, hrun, hinv⟩ := Trace.run_ok (fun s e h hs => RunInv.step h hs)
    (init_runInv kind k decodeNext params lp) hsound
  refine ⟨s, hrun, fun hk => ?_, fun hk => hinv.interval ▸ (hinv.spaced hk).spaced⟩
  have hd := hinv.delta hk
  exact ⟨hd.received_initial, hd.sent.tokenIds, hd.sent.logprobs, hd.delivered⟩

instance (s : RequestState τ ℓ) [DecidableEq τ] (ts : List τ) : Decidable (s.Carries ts) := by
  unfold Carries
  infer_instance

instance (s : RequestState τ ℓ) [DecidableEq τ] (ts : List τ) : Decidable (s.LogprobsFit ts) := by
  unfold LogprobsFit
  infer_instance

instance (s : RequestState τ ℓ) [DecidableEq τ] (ts : List τ) : Decidable (s.Timely ts) := by
  unfold Timely
  split <;> infer_instance

instance [DecidableEq τ] (s : Stream τ ℓ) (e : Event τ ℓ) : Decidable (s.Sound e) := by
  unfold Sound
  split <;> infer_instance

def noStop : StopParams where
  stop := []
  minTokens := 0
  includeStopStrInOutput := false
  stop_ne_nil := by decide

def characters (cs : List Char) (finishReason : Option FinishReason) : Event Char Nat :=
  .engine {
    newTokenIds := cs
    newLogprobs := cs.map Char.toNat
    finishReason := finishReason
    length_eq := length_map _ }

def spacedRun : List (Event Char Nat) :=
  [characters ['a'] none, .get, characters ['b'] none, characters ['c'] none, .get,
    characters ['d'] (some .length), .get]

theorem run_streams_spaced : ∃ s : Stream Char Nat,
    Trace.run step (init .delta 2 Detokenizer.character noStop true) spacedRun = .ok s ∧
      (s.live = false → s.output = none → s.Delivered) ∧ Spaced 2 s.made := by
  have hpasses : Trace.passes step (fun s e => decide (s.Sound e))
      (init .delta 2 Detokenizer.character noStop true) spacedRun = true := by decide +kernel
  obtain ⟨s, hrun, hdelta, hspaced⟩ := run_streams .delta 2 Detokenizer.character noStop true
    spacedRun (Trace.meets_of_passes (fun s e h => of_decide_eq_true h) hpasses)
  exact ⟨s, hrun, (hdelta rfl).2.2.2, hspaced (by decide)⟩

/-- An abort repeats the logprobs of a token that was delivered. With cumulative outputs every token
gives an output, whatever the interval. -/
theorem stream_counter :
    (∃ s : Stream Char Nat, Trace.run step (init .delta 1 Detokenizer.character noStop true)
        [characters ['a'] none, .get, .abort, .get] = .ok s ∧
      s.live = false ∧ s.output = none ∧ s.state.logprobs = some [97] ∧
      (s.received.map (fun o => o.2.2.getD [])).flatten = [97, 97]) ∧
    ∃ s : Stream Char Nat, Trace.run step (init .cumulative 2 Detokenizer.character noStop true)
        [characters ['a'] none, .get, characters ['b'] none, .get, characters ['c'] none, .get] =
          .ok s ∧
      s.made = [(1, false), (2, false), (3, false)] ∧ ¬ Spaced 2 s.made := by
  refine ⟨⟨_, rfl, by decide +kernel⟩, ⟨_, rfl, by decide +kernel, fun h => ?_⟩⟩
  have hmade := isChain_cons_cons.mp h
  exact absurd (hmade.1 rfl rfl) (by decide)

end Stream
end OutputStream
end TailBlend
