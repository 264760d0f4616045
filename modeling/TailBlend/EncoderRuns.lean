import TailBlend.EncoderPasses
import TailBlend.RequestRuns

/-! Runs of the scheduler with a multimodal model: the encoder cache claims what was produced. -/
namespace TailBlend
open Scheduler List
variable {α ε κ : Type} [LinearOrder α]

/-! Besides `schedule()` the calls only give up references. -/

namespace Scheduler
variable {e : Env α ε κ} {I : ε → Prop} (hfree : ∀ enc req, I enc → I (e.enc.free enc req))
include hfree

variable {connector : Option (α → Bool)} {now : ℚ} {s s' : Scheduler α ε} {k k' : κ} {r : α}
  {status : RequestStatus} {rs : List α} {c : SchedulerConfig} {mo : ModelOutput α}
  {out : SchedulerOutput α} {st st' : UpdateLoop α ε κ} {scheduled : List (α × Int)}

theorem freeRequest_encoder {delay : Bool} (hI : I s.encoder)
    (h : freeRequest e connector now s k r delay = .ok (s', k')) : I s'.encoder := by
  simp only [freeRequest, seq_ok_iff] at h
  obtain ⟨-, -, kv, -, h⟩ := h
  split at h
  · cases h
    exact hfree _ _ hI
  simp only [freeBlocks, seq_ok_iff] at h
  obtain ⟨s1, ⟨-, -, h1⟩, h⟩ := h
  cases h
  split at h1
  · cases h1
    exact hfree _ _ hI
  · cases h1

theorem finishAll_encoder (hI : I s.encoder)
    (h : finishAll e connector now status s k rs = .ok (s', k')) : I s'.encoder := by
  induction rs generalizing s k with
  | nil =>
    cases h
    exact hI
  | cons r rs ih =>
    simp only [finishAll, seq_ok_iff] at h
    obtain ⟨⟨s1, k1⟩, h1, h⟩ := h
    refine ih (freeRequest_encoder hfree ?_ h1) h
    split <;> exact hI

theorem finishRequests_encoder {ids : Option (List α)} (hI : I s.encoder)
    (h : finishRequests e connector now s k ids status = .ok (s', k')) : I s'.encoder := by
  simp only [finishRequests, seq_ok_iff] at h
  obtain ⟨-, -, h⟩ := h
  exact finishAll_encoder hfree (s := s.dequeueAll e.policy _) hI h

omit hfree in
theorem enqueueWaitingRequest_encoder (policy : SchedulingPolicy) (s : Scheduler α ε) (r : α) :
    (s.enqueueWaitingRequest policy r).encoder = s.encoder := by
  unfold enqueueWaitingRequest
  split <;> rfl

theorem addRequest_encoder {req : Request α} (hI : I s.encoder)
    (h : s.addRequest e connector now k req = .ok (s', k')) : I s'.encoder := by
  unfold addRequest at h
  dsimp only at h
  split at h
  · split at h
    · split at h
      · cases h
      · cases h
        exact hI
    split at h
    · cases h
      exact hI
    · exact finishRequests_encoder hfree hI h
  · cases h
    rw [enqueueWaitingRequest_encoder]
    exact hI

theorem resetPrefixCache_encoder {reset ok : Bool} (hI : I s.encoder)
    (h : s.resetPrefixCache e.toCore reset = .ok (s', ok)) : I s'.encoder := by
  simp only [resetPrefixCache, seq_ok_iff] at h
  obtain ⟨s1, h1, h⟩ := h
  have hI1 : I s1.encoder := by
    split at h1
    · simp only [preemptRunning, seq_ok_iff] at h1
      obtain ⟨s2, h2, h1⟩ := h1
      cases h1
      have hI2 : I s2.encoder :=
        preemptAll_keeps (P := fun s => I s.encoder) (fun _ _ _ h => hfree _ _ h) hI h2
      exact hI2
    · cases h1
      exact hI
  split at h
  · cases h
  · cases h
    exact hI1

omit hfree in
theorem updateDraftTokenIds_encoder (s : Scheduler α ε) (drafts : List (α × List Int)) :
    (s.updateDraftTokenIds drafts).encoder = s.encoder := by
  unfold updateDraftTokenIds
  induction drafts generalizing s with
  | nil => rfl
  | cons d drafts ih =>
    rw [foldl_cons, ih]
    split <;> rfl

theorem stopRequest_encoder (hI : I s.encoder) (h : stopRequest e mo s k r = .ok (s', k')) :
    I s'.encoder := by
  have hstop (s1 : Scheduler α ε) (fin : Bool)
      (hs : s.handleStoppedRequest e.policy r = (s1, fin)) : s1.encoder = s.encoder := by
    unfold handleStoppedRequest at hs
    dsimp only at hs
    split at hs
    · cases hs
      rfl
    split at hs
    · cases hs
      rfl
    · cases hs
      rw [enqueueWaitingRequest_encoder]
      rfl
    · cases hs
      rw [enqueueWaitingRequest_encoder]
      rfl
  unfold stopRequest at h
  split at h
  · rename_i s1 hs
    exact freeRequest_encoder hfree (hstop s1 true hs ▸ hI) h
  · rename_i s1 hs
    cases h
    exact hstop s' false hs ▸ hI

variable (hinputs : ∀ enc req, I enc → I (e.enc.freeInputs enc req))
include hinputs

theorem updateOne_encoder (hI : I st.sched.encoder) (h : updateOne e out mo st r = .ok st') :
    I st'.sched.encoder := by
  simp only [updateOne, seq_ok_iff] at h
  obtain ⟨⟨s1, kept, stopped⟩, happly, ⟨s2, k⟩, hstop, h⟩ := h
  cases h
  have hsettle : I (st.sched.settle e.toCore out mo r).encoder := by
    unfold settle
    dsimp only
    generalize hs1 : (if (OrderedDict.get? out.scheduledSpecDecodeTokens r).getD [] ≠ [] ∧
      mo.sampledTokenIds r ≠ [] then st.sched.modify r (rejectDrafts
        ((OrderedDict.get? out.scheduledSpecDecodeTokens r).getD []).length
        (mo.sampledTokenIds r).length) else st.sched) = s1
    have hI1 : I s1.encoder := by
      subst hs1
      split <;> exact hI
    split
    · exact hinputs _ _ hI1
    · exact hI1
  rw [← (applyTokens_takes happly).2.2.1] at hsettle
  have hI2 : I s2.encoder := by
    split at hstop
    · exact stopRequest_encoder hfree hsettle hstop
    · cases hstop
      exact hsettle
  split
  · exact hI2
  · exact hI2

theorem updateLoop_encoder {failed : List α} (hI : I st.sched.encoder)
    (h : updateLoop e out mo failed st scheduled = .ok st') : I st'.sched.encoder := by
  induction scheduled generalizing st with
  | nil =>
    cases h
    exact hI
  | cons y ys ih =>
    simp only [updateLoop, seq_ok_iff] at h
    obtain ⟨-, -, mid, hmid, h⟩ := h
    refine ih ?_ h
    split at hmid
    · cases hmid
      exact hI
    · exact updateOne_encoder hfree hinputs hI hmid

omit hfree hinputs in
theorem freeBlocks_encoder (h : s.freeBlocks r = .ok s') : s'.encoder = s.encoder := by
  simp only [freeBlocks, seq_ok_iff] at h
  obtain ⟨-, -, h⟩ := h
  split at h
  · cases h
    rfl
  · cases h

theorem updateFromOutput_encoder {outputs : List (EngineCoreOutput α)} (hI : I s.encoder)
    (h : s.updateFromOutput e out mo k = .ok (s', k', outputs)) : I s'.encoder := by
  simp only [updateFromOutput, finishTransfers, seq_ok_iff] at h
  obtain ⟨⟨s1, failed⟩, h1, st, hst, ⟨s2, k2⟩, ⟨⟨s3, k3⟩, hfin, s4, hrecv, s5, hsend, hend⟩, h⟩ := h
  cases h
  cases hend
  have hI1 : I s1.encoder := by
    split at h1
    · exact (handleInvalidBlocks_counts h1).2 ▸ hI
    · cases h1
      exact hI
  have hI2 : I st.sched.encoder := by
    refine updateLoop_encoder hfree hinputs ?_ hst
    exact hI1
  have hI3 : I s3.encoder := by
    split at hfin
    · exact finishRequests_encoder hfree (s := removeStopped e.policy st) hI2 hfin
    · cases hfin
      exact hI2
  exact transfers_keep (P := fun s => I s.encoder) (fun _ _ h => h)
    (fun _ _ _ hblocks h => freeBlocks_encoder hblocks ▸ h) hI3 hrecv hsend

end Scheduler

/-! Runs. -/

namespace Scheduler

omit [LinearOrder α] in
theorem advance_features (c : SchedulerConfig) (n : Int) (numSpec : Nat) (req : Request α) :
    (advance c n numSpec req).mmFeatures = req.mmFeatures := by
  unfold advance
  dsimp only
  split <;> rfl

theorem updateAfterSchedule_features {c : SchedulerConfig} {spec : List (α × List Int)}
    {s s' : Scheduler α ε} {scheduled : List (α × Int)}
    (h : s.updateAfterSchedule c spec scheduled = .ok s') :
    s'.encoder = s.encoder ∧ ∀ x, (s'.objs x).mmFeatures = (s.objs x).mmFeatures := by
  induction scheduled generalizing s with
  | nil =>
    cases h
    exact ⟨rfl, fun _ => rfl⟩
  | cons y ys ih =>
    obtain ⟨r, n⟩ := y
    unfold updateAfterSchedule at h
    split at h
    · obtain ⟨henc, hobjs⟩ := ih h
      refine ⟨henc, fun x => (hobjs x).trans ?_⟩
      change ((s.modify r _).objs x).mmFeatures = _
      by_cases hx : x = r
      · subst hx
        rw [modify_objs_self, advance_features]
      · rw [modify_objs_of_ne _ _ hx]
    · cases h

def stepHashes (s : Scheduler α ε) (out : SchedulerOutput α) : List String :=
  plannedHashes (fun x => (s.objs x).mmFeatures) out.scheduledEncoderInputs ++
    out.ecConnectorMetadata

end Scheduler

namespace System

def producedAfter (sys' : System α ε κ) (produced : List String) : Event α → List String
  | .schedule _ => match sys'.inFlight.getLast? with
    | some out => produced.filter (fun x => x ∉ out.freeEncoderMmHashes) ++
        sys'.sched.stepHashes out
    | none => produced
  | _ => produced

/-- The outputs that were computed or loaded by the steps of a run and are not evicted since. -/
def produced (e : Env α ε κ) : System α ε κ → List (Event α) → List String → List String
  | _, [], acc => acc
  | sys, ev :: evs, acc => match sys.step e ev with
    | .ok sys' => produced e sys' evs (sys'.producedAfter acc ev)
    | .error _ => acc

/-- When `schedule()` is called, no request with multimodal input still to compute may be
preempted for one that is served after it: the controller does not choose it, and under the
priority policy the other one is the preferred victim. -/
def SparesPending (e : Env α ε κ) (sys : System α ε κ) : Event α → Prop
  | .schedule _ => ∀ v r, [v, r].Sublist sys.sched.running → (sys.sched.objs v).Pending →
      (∀ k s now x, e.hooks.selectVictim k s now x ≠ some v) ∧
        (e.policy = .priority → sys.sched.rank v < sys.sched.rank r)
  | _ => True

variable {e : Env α (EncoderState α) κ} {encDec disable : Bool} {has : Nat → String → Bool}

/-- What the encoder cache claims was produced. -/
structure Backed (sys : System α (EncoderState α) κ) (produced : List String) : Prop where
  conserves : sys.Conserves
  claims : ∀ x, sys.sched.encoder.cache.Claims x → x ∈ produced
  freed : sys.sched.encoder.cache.freed = []

variable {sys sys' : System α (EncoderState α) κ}

section
variable (henc : e.enc = .multimodal encDec disable has)
include henc

theorem Backed.schedule {produced : List String} (h : sys.Backed produced) {inp : ScheduleInput α}
    (hspare : sys.SparesPending e (.schedule inp)) (hstep : sys.step e (.schedule inp) = .ok sys') :
    (∀ x, sys'.sched.encoder.cache.Claims x → x ∈ sys'.producedAfter produced (.schedule inp)) ∧
      sys'.sched.encoder.cache.freed = [] := by
  simp only [System.step, Scheduler.schedule, Scheduler.issue, seq_ok_iff] at hstep
  obtain ⟨⟨s, k, out⟩, ⟨p, hp, ⟨s1, out1⟩, ⟨-, -, newData, -, rows, -, resumed, -, s2, hs2, hout⟩,
    hs⟩, hstep⟩ := hstep
  obtain ⟨rfl, rfl⟩ := Prod.mk.inj (Except.ok.inj hout)
  obtain ⟨rfl, h1⟩ := Prod.mk.inj (Except.ok.inj hs)
  obtain ⟨rfl, rfl⟩ := Prod.mk.inj h1
  cases hstep
  obtain ⟨hcov, hfeat⟩ := Scheduler.plan_covered henc h.conserves.sched
    (fun v r hvr hpending => (hspare v r hvr hpending).imp_left (fun hc s n x => hc _ s _ x))
    h.claims h.freed hp
  obtain ⟨hsame, hfeat'⟩ := Scheduler.updateAfterSchedule_features hs2
  have henc' : s2.encoder = (e.enc.getFreedMmHashes p.sched.encoder).1 := hsame
  rw [henc] at henc'
  have hF : (fun x => (s2.objs x).mmFeatures) = fun x => (sys.sched.objs x).mmFeatures :=
    funext (fun x => (hfeat' x).trans (hfeat x))
  refine ⟨fun x hx => ?_, ?_⟩
  · rw [henc'] at hx
    simp only [producedAfter, getLast?_append, getLast?_singleton, Scheduler.stepHashes, hF, henc]
    rcases hcov x hx with ⟨hp, hf⟩ | hp
    · exact mem_append_left _ (mem_filter.mpr ⟨hp, decide_eq_true hf⟩)
    · exact mem_append_right _ (mem_append.mpr hp)
  · rw [henc']
    rfl

theorem Backed.step {produced : List String} (h : sys.Backed produced) {ev : Event α}
    (hfound : sys.StopsFound e.toSchedulerConfig ev) (hspare : sys.SparesPending e ev)
    (hstep : sys.step e ev = .ok sys') : sys'.Backed (sys'.producedAfter produced ev) := by
  have hcons := h.conserves.step hfound hstep
  -- the calls other than `schedule()` keep `I`
  let I (enc : EncoderState α) : Prop :=
    (∀ x, enc.cache.Claims x → x ∈ produced) ∧ enc.cache.freed = []
  have hI : I sys.sched.encoder := ⟨h.claims, h.freed⟩
  have hkeep {enc enc' : EncoderState α} (hI : I enc) (h : (∀ x, enc'.cache.Claims x ↔
      enc.cache.Claims x) ∧ enc'.cache.freed = enc.cache.freed) : I enc' :=
    ⟨fun x hx => hI.1 x ((h.1 x).mp hx), h.2.trans hI.2⟩
  have hfree (enc : EncoderState α) (req : Request α) (hI : I enc) : I (e.enc.free enc req) := by
    rw [henc]
    exact hkeep hI (EncoderCacheManager.freeAll_claims _ _ _)
  have hinputs (enc : EncoderState α) (req : Request α) (hI : I enc) :
      I (e.enc.freeInputs enc req) := by
    rw [henc]
    exact hkeep hI (EncoderCacheManager.freeAll_claims _ _ _)
  cases ev with
  | schedule inp =>
    obtain ⟨hclaims, hfreed⟩ := h.schedule henc hspare hstep
    exact ⟨hcons, hclaims, hfreed⟩
  | addRequest args connector now =>
    simp only [System.step, seq_ok_iff] at hstep
    obtain ⟨⟨s, k⟩, hs, hstep⟩ := hstep
    cases hstep
    obtain ⟨hc, hf⟩ := addRequest_encoder hfree hI hs
    exact ⟨hcons, hc, hf⟩
  | updateFromOutput mo =>
    unfold System.step at hstep
    cases hfl : sys.inFlight with
    | nil =>
      simp only [hfl] at hstep
      cases hstep
      exact h
    | cons out rest =>
      simp only [hfl, seq_ok_iff] at hstep
      obtain ⟨⟨s, k, outputs⟩, hs, hstep⟩ := hstep
      cases hstep
      obtain ⟨hc, hf⟩ := updateFromOutput_encoder hfree hinputs hI hs
      exact ⟨hcons, hc, hf⟩
  | updateDraftTokenIds drafts =>
    cases hstep
    have hsame := updateDraftTokenIds_encoder sys.sched drafts
    exact ⟨hcons, fun x hx => h.claims x (hsame ▸ hx), hsame ▸ h.freed⟩
  | finishRequests ids status connector now =>
    simp only [System.step, seq_ok_iff] at hstep
    obtain ⟨⟨s, k⟩, hs, hstep⟩ := hstep
    cases hstep
    obtain ⟨hc, hf⟩ := finishRequests_encoder hfree hI hs
    exact ⟨hcons, hc, hf⟩
  | resetPrefixCache reset =>
    simp only [System.step, seq_ok_iff] at hstep
    obtain ⟨⟨s, ok⟩, hs, hstep⟩ := hstep
    cases hstep
    obtain ⟨hc, hf⟩ := resetPrefixCache_encoder hfree hI hs
    exact ⟨hcons, hc, hf⟩
  | setPauseState state =>
    cases hstep
    exact ⟨hcons, h.claims, h.freed⟩

theorem Backed.run {acc : List String} (h : sys.Backed acc) {evs : List (Event α)}
    (hcond : Trace.Meets (System.step e) (fun sys ev => sys.StopsFound e.toSchedulerConfig ev ∧
      sys.SparesPending e ev) sys evs) (hrun : sys.run e evs = .ok sys') :
    sys'.Backed (produced e sys evs acc) := by
  induction evs generalizing sys acc with
  | nil =>
    cases hrun
    exact h
  | cons ev evs ih =>
    obtain ⟨mid, hmid, hrest⟩ := (seq_ok_iff ..).mp hrun
    unfold produced
    rw [hmid]
    exact ih (h.step henc hcond.1.1 hcond.1.2 hmid) (hcond.2 mid hmid) hrest

end

/-- In every run that spares the requests with multimodal input to compute, the encoder cache
claims only outputs that were computed or loaded by a step and are not evicted since. -/
theorem run_claims_produced (henc : e.enc = .multimodal encDec disable has)
    (kv : KVCacheManager α) (cacheSize : Int) (objs : α → Request α) (k : κ)
    {evs : List (Event α)} {sys : System α (EncoderState α) κ}
    (hcond : Trace.Meets (step e) (fun sys ev => sys.StopsFound e.toSchedulerConfig ev ∧
      sys.SparesPending e ev) ⟨.init kv ⟨.init cacheSize, 0⟩ objs, k, []⟩ evs)
    (hrun : System.run e ⟨.init kv ⟨.init cacheSize, 0⟩ objs, k, []⟩ evs = .ok sys)
    (mmHash : String) (hclaim : sys.sched.encoder.cache.Claims mmHash) :
    mmHash ∈ produced e ⟨.init kv ⟨.init cacheSize, 0⟩ objs, k, []⟩ evs [] := by
  have hstart : (⟨.init kv ⟨.init cacheSize, 0⟩ objs, k, []⟩ :
      System α (EncoderState α) κ).Backed [] :=
    ⟨conserves_init kv _ objs k, fun x hx => by
      simp [init, EncoderCacheManager.init, EncoderCacheManager.Claims,
        Dict.contains] at hx, rfl⟩
  exact (hstart.run henc hcond hrun).claims mmHash hclaim

/-! Two requests with chunked prefill and room for one of them; an image stands at positions
5 and 6 of the first. -/

def imageArgs : Request.Args Nat :=
  { Request.Args.text 0 0 [1, 2, 3, 4, 5, 7, 7, 8] 1 with
    priority := 1, mmFeatures := [⟨"image", 5, 2, none, by simp⟩] }

def imageEnv (policy : SchedulingPolicy) : Env Nat (EncoderState Nat) Unit :=
  { ({ SchedulerConfig.text 1 8 with
        policy := policy
        longPrefillTokenThreshold := 2
        maxNumEncoderInputTokens := 8 } : SchedulerConfig) with
    enc := .multimodal false false (fun _ _ => false)
    hooks := .disabled }

def imageSystem : System Nat (EncoderState Nat) Unit :=
  ⟨.init (.text 1 9 Nat.one_pos false) ⟨.init 8, 0⟩ (fun r => .new (.text r 0 [] 0)), (), []⟩

/-- In the third step request 0 gets to its image, and then request 1 needs a block. -/
def imageSteps : List (Event Nat) :=
  [.addRequest imageArgs none 0, .schedule .text, .updateFromOutput (.text (fun _ => [])),
    .addRequest (.text 1 1 [1, 2, 3, 4, 5, 6] 1) none 0, .schedule .text,
    .updateFromOutput (.text (fun _ => [])), .schedule .text]

/-- Request 0 is preempted with its image scheduled: the image is not computed, but claimed. -/
theorem image_claimed_not_produced :
    ∃ sys, imageSystem.run (imageEnv .priority) imageSteps = .ok sys ∧
      sys.sched.encoder.cache.Claims "image" ∧
      "image" ∉ produced (imageEnv .priority) imageSystem imageSteps [] := by
  have hval : (imageSystem.run (imageEnv .priority) imageSteps).toOption.any (fun sys =>
      sys.sched.encoder.cache.cached.contains "image" &&
        decide ("image" ∉ produced (imageEnv .priority) imageSystem imageSteps [])) = true := by
    decide +kernel
  obtain ⟨sys, hrun, hval⟩ := ok_of_any hval
  obtain ⟨hclaim, hnot⟩ := Bool.and_eq_true_iff.mp hval
  exact ⟨sys, hrun, hclaim, of_decide_eq_true hnot⟩

/-- A sufficient test: the requests of the step still run. -/
def stepRuns (sys : System Nat (EncoderState Nat) Unit) : Event Nat → Bool
  | .updateFromOutput _ => sys.inFlight.head?.all (fun out => out.numScheduledTokens.all (fun x =>
      decide ((sys.sched.objs x.1).status = .running)))
  | _ => true

theorem spared_of_stepRuns (sys : System Nat (EncoderState Nat) Unit) (ev : Event Nat)
    (h : stepRuns sys ev = true) : sys.StopsFound (imageEnv .fcfs).toSchedulerConfig ev ∧
      sys.SparesPending (imageEnv .fcfs) ev := by
  cases ev with
  | updateFromOutput mo =>
    refine ⟨fun out hout s1 failed _ r hr _ _ hidle => ?_, trivial⟩
    rw [stepRuns, hout] at h
    obtain ⟨x, hx, rfl⟩ := mem_map.mp hr
    exact absurd (of_decide_eq_true (all_eq_true.mp h x hx)) hidle
  | schedule inp => exact ⟨trivial, fun v r _ _ => ⟨fun _ _ _ _ => nofun, nofun⟩⟩
  | _ => exact ⟨trivial, trivial⟩

theorem image_claimed_and_produced :
    ∃ sys, imageSystem.run (imageEnv .fcfs) imageSteps = .ok sys ∧
      sys.sched.encoder.cache.Claims "image" ∧
      "image" ∈ produced (imageEnv .fcfs) imageSystem imageSteps [] := by
  have hval : (imageSystem.run (imageEnv .fcfs) imageSteps).toOption.any (fun sys =>
      sys.sched.encoder.cache.cached.contains "image") = true := by
    decide +kernel
  have htest : Trace.passes (step (imageEnv .fcfs)) stepRuns imageSystem imageSteps = true := by
    decide +kernel
  obtain ⟨sys, hrun, hval⟩ := ok_of_any hval
  have henc : (imageEnv .fcfs).enc = .multimodal false false (fun _ _ => false) := rfl
  exact ⟨sys, hrun, hval, run_claims_produced henc _ 8 _ ()
    (Trace.meets_of_passes spared_of_stepRuns htest) hrun "image" hval⟩

end System
end TailBlend
