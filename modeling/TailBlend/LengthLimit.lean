import TailBlend.OutputPositions

/-! A generation request that runs stays below `max_model_len`, if its prompt leaves room for
`min_tokens`. -/
namespace TailBlend
variable {α ε κ : Type} [LinearOrder α]

namespace Request
variable {L : Int} {req req' : Request α}

/-- The prompt of a generation request is below the limit and leaves room for `min_tokens`. -/
def Args.Fits (L : Int) (args : Args α) : Prop :=
  args.resumable = false ∧ match args.task with
    | .sampling params _ _ => args.prompt.length < L ∧ args.prompt.length + params.minTokens ≤ L
    | .pooling => True

/-- A generation request without a session stays below the limit while it is unfinished. -/
structure Fits (L : Int) (req : Request α) : Prop where
  plain : req.resumable = false
  tokens : req.numTokens = req.numPromptTokens + req.numOutputTokens
  room : ∀ sp ∈ req.samplingParams, req.numPromptTokens + sp.minTokens ≤ L ∧ req.numTokens < L

section
omit [LinearOrder α]

theorem Fits.sameTokens (h : req.Fits L) (hsame : req.SameTokens req') : req'.Fits L := by
  refine ⟨hsame.resumable.trans h.plain, ?_, fun sp hsp => ?_⟩
  · unfold numTokens numOutputTokens
    rw [hsame.all, hsame.output, hsame.numPrompt]
    exact h.tokens
  rw [hsame.sampling] at hsp
  unfold numTokens
  rw [hsame.all, hsame.numPrompt]
  exact h.room sp hsp

theorem fits_new {args : Args α} (h : args.Fits L) : (new args).Fits L := by
  have hsame : (unhashed args).SameTokens (new args) := by
    unfold new updateBlockHashes
    split <;> exact ⟨rfl, rfl, rfl, rfl, rfl, rfl, rfl⟩
  have hlen : (unhashed args).numTokens = args.prompt.length := by
    change ((args.prompt.tokenIds.getD _).length : Int) = _
    cases args.prompt with
    | tokens ids => rfl
    | embeds rows => exact congrArg Nat.cast List.length_replicate
    | mixed ids rows hrows => rfl
  refine Fits.sameTokens ⟨h.1, ?_, fun sp hsp => ?_⟩ hsame
  · exact hlen.trans (add_zero _).symm
  rw [hlen]
  have hroom := h.2
  change _ ∈ (match args.task with
    | .sampling params maxTokens structured => (some params, maxTokens, structured)
    | .pooling => (none, 1, false)).1 at hsp
  cases htask : args.task with
  | pooling =>
    rw [htask] at hsp
    cases hsp
  | sampling params maxTokens structured =>
    rw [htask] at hsp hroom
    obtain rfl := Option.mem_some.mp hsp
    exact ⟨hroom.2, hroom.1⟩

/-! The stop check. -/

theorem checkStop_none (h : req.checkStop L = .ok none) :
    ∀ sp ∈ req.samplingParams, req.numOutputTokens < sp.minTokens ∨ req.numTokens < L := by
  intro sp hsp
  simp only [checkStop, seq_ok_iff] at h
  obtain ⟨-, -, h⟩ := h
  rw [Option.mem_def.mp hsp] at h
  dsimp only at h
  by_cases hmin : req.numOutputTokens < sp.minTokens
  · exact .inl hmin
  rw [if_neg hmin] at h
  refine .inr (lt_of_not_ge fun hlimit => ?_)
  cases hlast : req.outputTokenIds.getLast? with
  | none =>
    rw [hlast] at h
    cases h
  | some last =>
    rw [hlast] at h
    dsimp only at h
    by_cases heos : sp.eosTokenId = some last
    · rw [if_pos heos] at h
      cases h
    rw [if_neg heos] at h
    by_cases hstop : last ∈ sp.stopTokenIds
    · rw [if_pos hstop] at h
      cases h
    · rw [if_neg hstop, if_pos (.inl hlimit)] at h
      cases h

variable {kept : List Int} {tokens : List Int}

theorem updateWithOutput_checked {now : ℚ} (hne : tokens ≠ [])
    (h : req.updateWithOutput L now tokens = .ok (req', kept, false)) :
    req'.checkStop L = .ok none := by
  induction tokens generalizing req kept with
  | nil => exact absurd rfl hne
  | cons token tokens ih =>
    simp only [updateWithOutput, seq_ok_iff] at h
    obtain ⟨stop, hstop, h⟩ := h
    cases stop with
    | some status => cases h
    | none =>
      simp only [seq_ok_iff] at h
      obtain ⟨⟨req1, kept1, stopped₁⟩, hrest, h⟩ := h
      obtain ⟨rfl, -, rfl⟩ : req1 = req' ∧ token :: kept1 = kept ∧ stopped₁ = false := by
        simpa using Except.ok.inj h
      cases tokens with
      | nil =>
        cases hrest
        exact hstop
      | cons next tokens => exact ih (List.cons_ne_nil _ _) hrest

theorem Fits.updateWithOutput {now : ℚ} (hfits : req.Fits L) (hne : tokens ≠ [])
    (h : req.updateWithOutput L now tokens = .ok (req', kept, false)) : req'.Fits L := by
  have hcheck := checkStop_none (updateWithOutput_checked hne h)
  obtain ⟨⟨prob, time, hashes, heq⟩, -⟩ := updateWithOutput_appends h
  have htokens : req'.numTokens = req'.numPromptTokens + req'.numOutputTokens := by
    have := hfits.tokens
    rw [heq]
    unfold numTokens numOutputTokens at this ⊢
    dsimp only
    rw [List.length_append, List.length_append]
    omega
  have hroom : ∀ sp ∈ req'.samplingParams, req'.numPromptTokens + sp.minTokens ≤ L := by
    rw [heq]
    exact fun sp hsp => (hfits.room sp hsp).1
  refine ⟨?_, htokens, fun sp hsp => ⟨hroom sp hsp, ?_⟩⟩
  · rw [heq]
    exact hfits.plain
  have := hroom sp hsp
  rcases hcheck sp hsp with hmin | hlt
  · omega
  · exact hlt

theorem Fits.takes {c : SchedulerConfig} {mo : ModelOutput α} {r : α}
    (hfits : req.Fits c.maxModelLen) (h : req.Takes c mo r req' kept false) :
    req'.Fits c.maxModelLen := by
  cases h with
  | sync _ _ _ hne _ h => exact hfits.updateWithOutput hne h
  | discard => exact hfits.sameTokens ⟨rfl, rfl, rfl, rfl, rfl, rfl, rfl⟩
  | async req1 _ _ hne _ _ h =>
    exact (hfits.updateWithOutput hne h).sameTokens ⟨rfl, rfl, rfl, rfl, rfl, rfl, rfl⟩
  | nothing => exact hfits

end

end Request

/-! Runs. -/

namespace Tracked

def Roomy (c : SchedulerConfig) (t : Tracked α ε κ) : Event α → Prop
  | .addRequest args _ _ => args.Fits c.maxModelLen
  | ev => t.sys.StopsFound c ev

structure Fits (c : SchedulerConfig) (t : Tracked α ε κ) : Prop where
  conserves : t.sys.Conserves
  fits : ∀ x, t.sys.sched.Live x → (t.sys.sched.objs x).Fits c.maxModelLen

variable {e : Env α ε κ} {t : Tracked α ε κ} {sys : System α ε κ} {x : α} {c : SchedulerConfig}

section
variable (hmodest : e.enc.Modest) (h : t.Fits e.toSchedulerConfig)
include hmodest h

theorem Fits.output {mo : ModelOutput α} (hsys : t.sys.step e (.updateFromOutput mo) = .ok sys)
    (hlive : sys.sched.Live x) : (sys.sched.objs x).Fits e.maxModelLen := by
  cases System.step_effect hmodest h.conserves hsys hlive with
  | noOutput _ hin hsame =>
    subst hsame
    exact h.fits x hlive
  | output _ out failed m hin hl hm hquiet hgets =>
    have hbase : ({ t.sys.sched.objs x with numComputedTokens := m } : Request α).Fits
        e.maxModelLen := (h.fits x hl).sameTokens ⟨rfl, rfl, rfl, rfl, rfl, rfl, rfl⟩
    split at hgets
    · obtain ⟨mid, kept, stats, htakes, hobj⟩ := Request.gets_unstopped hbase.plain hgets hlive.2
      rw [hobj]
      refine ((hbase.sameTokens (Request.settled_sameTokens _ _ _)).takes htakes).sameTokens ?_
      exact ⟨rfl, rfl, rfl, rfl, rfl, rfl, rfl⟩
    · rw [hgets]
      exact hbase

theorem Fits.added {args : Request.Args α} {connector : Option (α → Bool)} {now : ℚ}
    (hargs : args.Fits e.maxModelLen)
    (hsys : t.sys.step e (.addRequest args connector now) = .ok sys) (hlive : sys.sched.Live x) :
    (sys.sched.objs x).Fits e.maxModelLen := by
  have hnew := Request.fits_new hargs
  cases System.step_effect hmodest h.conserves hsys hlive with
  | added _ _ _ hin hadds =>
    cases hadds with
    | same hl hobj =>
      rw [hobj]
      exact h.fits x hl
    | fresh hx hout hobj =>
      rw [if_neg (by simp [hnew.plain])] at hobj
      rw [hobj]
      exact hnew
    | queued hx hl q hstatus hobj =>
      have hfits := h.fits x hl
      rw [hobj]
      exact ⟨hfits.plain, hfits.tokens, hfits.room⟩
    | resumed hx hl update hstatus hupdate hobj =>
      unfold Request.toStreamingUpdate at hupdate
      rw [if_neg (by simp [hnew.plain])] at hupdate
      cases hupdate

theorem Fits.step {t' : Tracked α ε κ} {ev : Event α} (hcond : t.Roomy e.toSchedulerConfig ev)
    (hstep : t.step e ev = .ok t') : t'.Fits e.toSchedulerConfig := by
  simp only [Tracked.step, seq_ok_iff] at hstep
  obtain ⟨sys, hsys, hstep⟩ := hstep
  cases hstep
  have hfound : t.sys.StopsFound e.toSchedulerConfig ev := by
    cases ev with
    | addRequest => trivial
    | _ => exact hcond
  have htrack : (t.track sys ev).sys = sys := by
    cases ev with
    | resetPrefixCache flag => cases flag <;> rfl
    | _ => rfl
  have hcons := h.conserves.step hfound hsys
  rw [← htrack] at hcons
  refine ⟨hcons, ?_⟩
  rw [htrack]
  intro x hlive
  by_cases hquiet : ev.quiet = true
  · obtain ⟨hl, hsame⟩ := (System.step_effect hmodest h.conserves hsys hlive).sameTokens hquiet
    exact (h.fits x hl).sameTokens hsame
  cases ev with
  | addRequest args connector now => exact h.added hmodest hcond hsys hlive
  | updateFromOutput mo => exact h.output hmodest hsys hlive
  | _ => exact absurd rfl hquiet

end

theorem fits_init (c : SchedulerConfig) (kv : KVCacheManager α) (encoder : ε)
    (objs : α → Request α) (k : κ) : (init ⟨.init kv encoder objs, k, []⟩).Fits c where
  conserves := System.conserves_init kv encoder objs k
  fits _ hlive := absurd hlive.1 List.not_mem_nil

theorem Exact.wantedTokens_pos (h : t.Exact c) (hx : x ∈ t.sys.sched.running)
    (hlt : (t.sys.sched.objs x).numTokens < c.maxModelLen)
    (hidle : ∀ out ∈ t.sys.inFlight, x ∉ out.numScheduledTokens.map Prod.fst) {budget : Int}
    (hbudget : 0 < budget) : 0 < RunningPhase.wantedTokens c (t.sys.sched.objs x) budget := by
  have hstatus := ((Tally.acts h.conserves.sched x).mp hx).2
  have ha := h.agrees x (Tally.live_of_mem h.conserves.sched (.inl hx))
  have hawaited : t.awaited x = 0 :=
    sum_positions_eq_zero (fun p hp => h.idle hidle p (List.mem_of_mem_drop hp))
  have hpl : (t.sys.sched.objs x).numOutputPlaceholders = 0 := by
    rw [ha.placeholders, hawaited]
    split <;> rfl
  have hrun := ha.running hstatus
  have hspec : (t.sys.sched.objs x).numTokensWithSpec =
      (t.sys.sched.objs x).numTokens + (t.sys.sched.objs x).specTokenIds.length := rfl
  refine lt_min (lt_min ?_ hbudget) (by omega)
  split_ifs with hlong
  · exact hlong.1
  · omega

/-- In every run whose requests leave room for `min_tokens`, a generation request that runs is
below the limit; if the run is orderly and no step is in flight for it, it asks for a token. -/
theorem run_below_limit {e : Env α ε κ} (henc : e.enc.Embedded) (kv : KVCacheManager α)
    (encoder : ε) (objs : α → Request α) (k : κ) {evs : List (Event α)} {t : Tracked α ε κ}
    (hcond : Trace.Meets (step e) (Roomy e.toSchedulerConfig)
      (init ⟨.init kv encoder objs, k, []⟩) evs)
    (hrun : Trace.run (step e) (init ⟨.init kv encoder objs, k, []⟩) evs = .ok t) :
    ∀ x ∈ t.sys.sched.running, (t.sys.sched.objs x).samplingParams.isSome = true →
      (t.sys.sched.objs x).numTokens < e.maxModelLen ∧
      (Trace.Meets (step e) (Orderly e.toSchedulerConfig)
          (init ⟨.init kv encoder objs, k, []⟩) evs →
        (∀ out ∈ t.sys.inFlight, x ∉ out.numScheduledTokens.map Prod.fst) → ∀ budget, 0 < budget →
          0 < RunningPhase.wantedTokens e.toSchedulerConfig (t.sys.sched.objs x) budget) := by
  intro x hx hsome
  have hfits : t.Fits e.toSchedulerConfig :=
    Trace.run_induct (fun _ _ _ h => h.step henc.modest) (fits_init _ kv encoder objs k) hcond hrun
  obtain ⟨sp, hsp⟩ := Option.isSome_iff_exists.mp hsome
  have hlt := ((hfits.fits x (Tally.live_of_mem hfits.conserves.sched (.inl hx))).room sp hsp).2
  refine ⟨hlt, fun horderly hidle budget hbudget => ?_⟩
  have hexact : t.Exact e.toSchedulerConfig :=
    Trace.run_induct (fun _ _ _ h => h.step henc.modest) (exact_init _ kv encoder objs k)
      horderly hrun
  exact hexact.wantedTokens_pos hx hlt hidle hbudget

/-! One request with `min_tokens = max_tokens = 5`. -/

def minTokensRun : List (Event Nat) :=
  [.addRequest { Request.Args.text 0 0 [1, 2, 3] 5 with
      task := .sampling ⟨5, none, [], [], none⟩ 5 false } none 0,
    .schedule .text, token 7]

/-- With `max_model_len = 4` the request keeps running at the limit, and no token is left to
compute for it. -/
theorem stuck_at_limit :
    ∃ t, Trace.run (step (.text { SchedulerConfig.text 2 8 with maxModelLen := 4 })) nineBlocks
        minTokensRun = .ok t ∧ 0 ∈ t.sys.sched.running ∧ t.sys.inFlight.length = 0 ∧
      (t.sys.sched.objs 0).numTokens = 4 ∧ RunningPhase.wantedTokens
        { SchedulerConfig.text 2 8 with maxModelLen := 4 } (t.sys.sched.objs 0) 8 = 0 := by
  have hval : (Trace.run (step (.text { SchedulerConfig.text 2 8 with maxModelLen := 4 }))
      nineBlocks minTokensRun).toOption.any (fun t =>
        decide (0 ∈ t.sys.sched.running ∧ t.sys.inFlight.length = 0 ∧
          (t.sys.sched.objs 0).numTokens = 4 ∧ RunningPhase.wantedTokens
            { SchedulerConfig.text 2 8 with maxModelLen := 4 } (t.sys.sched.objs 0) 8 = 0)) =
      true := by
    decide +kernel
  obtain ⟨t, hrun, hval⟩ := ok_of_any hval
  exact ⟨t, hrun, of_decide_eq_true hval⟩

def singlyRoomy (L : Int) (t : Tracked Nat Unit Unit) (ev : Event Nat) : Bool :=
  singly t ev && match ev with
    | .addRequest args _ _ => match args.task with
      | .sampling params _ _ =>
        decide (args.prompt.length < L ∧ args.prompt.length + params.minTokens ≤ L)
      | .pooling => true
    | _ => true

theorem roomy_of_singlyRoomy (t : Tracked Nat Unit Unit) (ev : Event Nat)
    (h : singlyRoomy c.maxModelLen t ev = true) : t.Roomy c ev := by
  obtain ⟨hsingly, hroom⟩ := Bool.and_eq_true_iff.mp h
  have horderly : t.Orderly c ev := orderly_of_singly t ev hsingly
  cases ev with
  | addRequest args connector now =>
    refine ⟨horderly.1, ?_⟩
    cases htask : args.task with
    | pooling => trivial
    | sampling params maxTokens structured =>
      dsimp only at hroom
      rw [htask] at hroom
      exact of_decide_eq_true hroom
  | updateFromOutput mo => exact horderly.2
  | _ => trivial

/-- With `max_model_len = 100` the same request asks for its next token. -/
theorem run_below_limit_next_token :
    ∃ t, Trace.run (step (.text (.text 2 8))) nineBlocks minTokensRun = .ok t ∧
      (t.sys.sched.objs 0).numTokens < 100 ∧
      0 < RunningPhase.wantedTokens (.text 2 8) (t.sys.sched.objs 0) 8 := by
  have hval : (Trace.run (step (.text (.text 2 8))) nineBlocks minTokensRun).toOption.any (fun t =>
      decide (0 ∈ t.sys.sched.running ∧ (t.sys.sched.objs 0).samplingParams.isSome = true ∧
        t.sys.inFlight.length = 0)) = true := by
    decide +kernel
  have htest : Trace.passes (step (.text (.text 2 8))) (singlyRoomy 100) nineBlocks
      minTokensRun = true := by
    decide +kernel
  obtain ⟨t, hrun, hval⟩ := ok_of_any hval
  obtain ⟨hmem, hsome, hnone⟩ := of_decide_eq_true hval
  rw [List.length_eq_zero_iff] at hnone
  obtain ⟨hlt, hwants⟩ := run_below_limit .text _ _ _ _
    (Trace.meets_of_passes roomy_of_singlyRoomy htest) hrun 0 hmem hsome
  have horderly : Trace.Meets (step (.text (.text 2 8))) (Orderly (.text 2 8)) nineBlocks
      minTokensRun := Trace.meets_of_passes
    (fun t ev h => orderly_of_singly t ev (Bool.and_eq_true_iff.mp h).1) htest
  refine ⟨t, hrun, hlt, hwants horderly (fun out hout => ?_) 8 (by decide)⟩
  rw [hnone] at hout
  cases hout

end Tracked
end TailBlend
