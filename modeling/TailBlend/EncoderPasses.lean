import TailBlend.EncoderInputs
import TailBlend.RequestConservation
import Mathlib.Data.Prod.Lex

/-! The encoder cache during the two passes of `schedule()`: what it claims to have was there
before or is scheduled, unless a victim takes its encoder inputs along. -/
namespace TailBlend
open EncoderCacheManager List Scheduler

/-- The encoder cache, with the number of the step, on which the connector's answers may
depend. -/
structure EncoderState (α : Type) where
  cache : EncoderCacheManager α
  steps : Nat

variable {α κ : Type} [LinearOrder α]

/-- `_free_encoder_inputs`. -/
def EncoderCacheManager.freeComputed (isEncoderDecoder : Bool) (m : EncoderCacheManager α)
    (req : Request α) : EncoderCacheManager α :=
  let inputs := (m.getCachedInputs req.mmFeatures).filter (fun f =>
    (isEncoderDecoder ∧ req.numComputedTokens > 0) ∨
      (f.offset + f.length : Int) ≤ req.numComputedTokens)
  inputs.foldl (fun m f => m.freeEncoderInput req.requestId f) m

def EncoderOps.multimodal (isEncoderDecoder disableChunkedMmInput : Bool)
    (hasCacheItem : Nat → String → Bool) : EncoderOps α (EncoderState α) where
  trySchedule enc req numComputedTokens n budget shift := do
    let (m, plan) ← tryScheduleEncoderInputs
      ⟨isEncoderDecoder, disableChunkedMmInput, hasCacheItem enc.steps⟩ enc.cache req
      numComputedTokens n budget shift
    return ({ enc with cache := m }, plan)
  allocate enc req i :=
    match req.mmFeatures[i]? with
    | none => .error .indexError
    | some f => do
      let m ← enc.cache.allocate req.requestId f
      return { enc with cache := m }
  free enc req := { enc with cache := enc.cache.free req.requestId req.mmFeatures }
  freeInputs enc req := { enc with cache := enc.cache.freeComputed isEncoderDecoder req }
  getFreedMmHashes enc :=
    let (m, freed) := enc.cache.getFreedMmHashes
    (⟨m, enc.steps + 1⟩, freed)

def Request.Pending (req : Request α) : Prop :=
  ∃ f ∈ req.mmFeatures, req.numComputedTokens < f.offset + f.length

/-! The operations on the encoder cache. -/

namespace EncoderScan
variable {cfg : EncoderSettings} {r : α} {c n shift : Int} {s s' : EncoderScan α} {i : Nat}
  {f : MmFeature}

theorem checkCached_shrinks {hit : Bool} (h : s.checkCached cfg r f = .ok (s', hit)) :
    s.cache.Shrinks s'.cache ∧ s'.encoderInputsToSchedule = s.encoderInputsToSchedule := by
  unfold checkCached at h
  split_ifs at h
  · cases h
    exact ⟨.refl _, rfl⟩
  · cases h
    exact ⟨.refl _, rfl⟩
  · rw [seq_ok_iff] at h
    obtain ⟨⟨cache, hit'⟩, hcheck, h⟩ := h
    cases h
    exact ⟨shrinks_checkAndUpdateCache hcheck, rfl⟩

theorem step_shrinks {next : EncoderNext α} (h : s.step cfg r c n shift i f = .ok next) :
    (∃ s', next = .goOn s' ∧ s.cache.Shrinks s'.cache ∧
      (s'.encoderInputsToSchedule = s.encoderInputsToSchedule ∨ c < f.offset + f.length)) ∨
    ∃ s' n', next = .stop s' n' ∧ (n' ≤ max n 0 ∧ (0 ≤ n → 0 ≤ n')) ∧
      s.cache.Shrinks s'.cache ∧ s'.encoderInputsToSchedule = s.encoderInputsToSchedule := by
  unfold step at h
  by_cases hbreak : f.offset ≥ c + n + shift
  · rw [if_pos hbreak] at h
    cases h
    exact .inr ⟨s, n, rfl, by omega, .refl _, rfl⟩
  rw [if_neg hbreak] at h
  by_cases hdec : cfg.isEncoderDecoder = true ∧ c > 0
  · rw [if_pos hdec, seq_ok_iff] at h
    obtain ⟨-, -, h⟩ := h
    cases h
    exact .inl ⟨s, rfl, .refl _, .inl rfl⟩
  rw [if_neg hdec] at h
  by_cases hdone : (f.offset + f.length : Int) ≤ c
  · rw [if_pos hdone] at h
    cases h
    exact .inl ⟨s, rfl, .refl _, .inl rfl⟩
  rw [if_neg hdone, seq_ok_iff] at h
  obtain ⟨⟨s1, hit⟩, hcheck, h⟩ := h
  obtain ⟨hshrink, hsame⟩ := checkCached_shrinks hcheck
  simp only at h
  by_cases ht : hit = true
  · rw [if_pos ht] at h
    cases h
    exact .inl ⟨s1, rfl, hshrink, .inl hsame⟩
  rw [if_neg ht] at h
  by_cases hsplit : cfg.disableChunkedMmInput = true ∧ c < f.offset ∧ c + n < f.offset + f.length
  · rw [if_pos hsplit] at h
    cases h
    exact .inr ⟨s1, _, rfl, by omega, hshrink, hsame⟩
  rw [if_neg hsplit, seq_ok_iff] at h
  obtain ⟨⟨cache, fits⟩, halloc, h⟩ := h
  have hshrink' := hshrink.trans (shrinks_canAllocate halloc)
  simp only at h
  by_cases hfits : fits = false
  · split_ifs at h
    · cases h
      exact .inr ⟨_, _, rfl, by omega, hshrink', hsame⟩
    · cases h
      exact .inr ⟨_, _, rfl, by omega, hshrink', hsame⟩
  split_ifs at h
  · cases h
    exact .inl ⟨_, rfl, hshrink', .inl hsame⟩
  cases h
  refine .inl ⟨_, rfl, ?_, .inr (by omega)⟩
  unfold schedule
  split_ifs
  · exact hshrink'
  · exact hshrink'

theorem loop_shrinks {fs : List MmFeature} {n' : Int}
    (h : loop cfg r c n shift fs i s = .ok (s', n')) :
    (n' ≤ max n 0 ∧ (0 ≤ n → 0 ≤ n')) ∧ s.cache.Shrinks s'.cache ∧
      (s'.encoderInputsToSchedule = s.encoderInputsToSchedule ∨
        ∃ f ∈ fs, c < f.offset + f.length) := by
  induction fs generalizing s i with
  | nil =>
    cases h
    exact ⟨by omega, .refl _, .inl rfl⟩
  | cons f fs ih =>
    unfold loop at h
    rw [seq_ok_iff] at h
    obtain ⟨next, hstep, h⟩ := h
    rcases step_shrinks hstep with ⟨s1, rfl, hshrink, hnew⟩ | ⟨s1, n1, rfl, hn, hshrink, hsame⟩
    · obtain ⟨hn, hshrink', hnew'⟩ := ih h
      refine ⟨hn, hshrink.trans hshrink', ?_⟩
      rcases hnew' with hsame' | ⟨g, hg, hlt⟩
      · rcases hnew with hsame | hlt
        · exact .inl (hsame'.trans hsame)
        · exact .inr ⟨f, mem_cons_self, hlt⟩
      · exact .inr ⟨g, mem_cons_of_mem _ hg, hlt⟩
    · cases h
      exact ⟨hn, hshrink, .inl hsame⟩

end EncoderScan

section operations
variable {encDec disable : Bool} {has : Nat → String → Bool} {enc enc' : EncoderState α}
  {req : Request α}

theorem trySchedule_shrinks {c n budget shift : Int} {plan : EncoderPlan}
    (h : (EncoderOps.multimodal encDec disable has).trySchedule enc req c n budget shift =
      .ok (enc', plan)) :
    (plan.numNewTokens ≤ max n 0 ∧ (0 ≤ n → 0 ≤ plan.numNewTokens)) ∧
      enc.cache.Shrinks enc'.cache ∧
      (plan.inputs = [] ∨ ∃ f ∈ req.mmFeatures, c < f.offset + f.length) := by
  simp only [EncoderOps.multimodal, tryScheduleEncoderInputs, seq_ok_iff] at h
  obtain ⟨⟨m, plan'⟩, htry, h⟩ := h
  cases h
  split_ifs at htry
  · cases htry
    exact ⟨by dsimp only; omega, .refl _, .inl rfl⟩
  rw [seq_ok_iff] at htry
  obtain ⟨⟨s, n'⟩, hloop, htry⟩ := htry
  cases htry
  exact EncoderScan.loop_shrinks hloop

theorem allocateAll_claims {inputs : List Nat}
    (h : (EncoderOps.multimodal encDec disable has).allocateAll enc req inputs = .ok enc') :
    (∀ x, enc'.cache.Claims x → x ∈ req.mmHashes inputs ∨ enc.cache.Claims x) ∧
      enc'.cache.freed = enc.cache.freed := by
  unfold EncoderOps.allocateAll at h
  induction inputs generalizing enc with
  | nil =>
    cases h
    exact ⟨fun x hx => .inr hx, rfl⟩
  | cons i inputs ih =>
    rw [foldlM_cons, seq_ok_iff] at h
    obtain ⟨enc1, halloc, h⟩ := h
    obtain ⟨hclaims, hfreed⟩ := ih h
    unfold EncoderOps.multimodal at halloc
    cases hf : req.mmFeatures[i]? with
    | none =>
      simp only [hf] at halloc
      cases halloc
    | some f =>
      simp only [hf, seq_ok_iff] at halloc
      obtain ⟨m, hm, halloc⟩ := halloc
      cases halloc
      obtain ⟨hclaims₁, hfreed1⟩ := allocate_claims hm
      refine ⟨fun x hx => ?_, hfreed.trans hfreed1⟩
      simp only [Request.mmHashes, MmFeature.hashes, filterMap_cons, hf, Option.map_some,
        mem_cons] at hclaims ⊢
      rcases hclaims x hx with hx | hx
      · exact .inl (.inr hx)
      · rcases (hclaims₁ x).mp hx with hx | hx
        · exact .inl (.inl hx)
        · exact .inr hx

variable (encDec disable has) in
theorem free_claims (enc : EncoderState α) (req : Request α) :
    (∀ x, ((EncoderOps.multimodal encDec disable has).free enc req).cache.Claims x ↔
      enc.cache.Claims x) ∧
    ((EncoderOps.multimodal encDec disable has).free enc req).cache.freed = enc.cache.freed :=
  freeAll_claims _ _ _

end operations

/-! What is claimed while a step is planned. -/

def plannedHashes (F : α → List MmFeature) (inputs : List (α × List Nat)) : List String :=
  inputs.flatMap (fun x => MmFeature.hashes (F x.1) x.2)

/-- What the cache claims was produced and is not evicted, or belongs to the step. -/
def Covered (produced : List String) (F : α → List MmFeature) (inputs : List (α × List Nat))
    (loads : List String) (enc : EncoderState α) : Prop :=
  ∀ x, enc.cache.Claims x → (x ∈ produced ∧ x ∉ enc.cache.freed) ∨
    x ∈ plannedHashes F inputs ∨ x ∈ loads

section covered
variable {produced : List String} {F : α → List MmFeature} {inputs : List (α × List Nat)}
  {loads : List String} {enc enc' : EncoderState α}

section
variable (h : Covered produced F inputs loads enc)
include h

omit [LinearOrder α] in
theorem Covered.shrinks
    (hs : enc.cache.Shrinks enc'.cache) : Covered produced F inputs loads enc' := by
  intro x hx
  obtain ⟨hx', hfreed⟩ := hs x hx
  exact (h x hx').imp_left (fun hp => ⟨hp.1, fun hf => hp.2 (hfreed hf)⟩)

omit [LinearOrder α] in
theorem Covered.same
    (hs : (∀ x, enc'.cache.Claims x ↔ enc.cache.Claims x) ∧ enc'.cache.freed = enc.cache.freed) :
    Covered produced F inputs loads enc' :=
  h.shrinks (shrinks_of_same hs.1 hs.2)

theorem Covered.allocated {r : α}
    (hr : r ∉ inputs.map Prod.fst) {plan : EncoderPlan}
    (hs : (∀ x, enc'.cache.Claims x →
      x ∈ MmFeature.hashes (F r) (plan.inputs ++ plan.externalInputs) ∨ enc.cache.Claims x) ∧
      enc'.cache.freed = enc.cache.freed) :
    Covered produced F (if plan.inputs = [] then inputs else OrderedDict.set inputs r plan.inputs)
      (loads ++ MmFeature.hashes (F r) plan.externalInputs) enc' := by
  have hset : plannedHashes F (if plan.inputs = [] then inputs
      else OrderedDict.set inputs r plan.inputs) =
      plannedHashes F inputs ++ MmFeature.hashes (F r) plan.inputs := by
    split_ifs with hnil
    · simp [hnil, MmFeature.hashes]
    · simp [OrderedDict.set, if_neg hr, plannedHashes]
  intro x hx
  rw [hset, hs.2, mem_append, mem_append]
  rcases hs.1 x hx with hx | hx
  · rw [MmFeature.hashes, filterMap_append, mem_append] at hx
    exact .inr (hx.imp .inr .inr)
  rcases h x hx with hp | hp | hp
  · exact .inl hp
  · exact .inr (.inl (.inl hp))
  · exact .inr (.inr (.inl hp))

end

end covered

/-! Victims. -/

/-- The order in which the priority policy prefers its victims. -/
def Scheduler.rank {ε : Type} (s : Scheduler α ε) (r : α) : Lex (Int × ℚ) :=
  toLex ((s.objs r).priority, (s.objs r).arrivalTime)

omit [LinearOrder α] in
theorem maxByPriority_spec {ε : Type} {s : Scheduler α ε} {l : List α} {m : α}
    (h : RunningPhase.maxByPriority s l = some m) : ∀ x ∈ l, s.rank x ≤ s.rank m := by
  cases l with
  | nil => simp
  | cons a l =>
    obtain rfl := Option.some_inj.mp h
    clear h
    induction l generalizing a with
    | nil => simp
    | cons b l ih =>
      rw [foldl_cons]
      have hlt : ((s.objs a).priority < (s.objs b).priority ∨ ((s.objs a).priority =
          (s.objs b).priority ∧ (s.objs a).arrivalTime < (s.objs b).arrivalTime)) ↔
          s.rank a < s.rank b := by
        unfold rank
        rw [Prod.Lex.toLex_lt_toLex]
      dsimp only
      split_ifs with hab
      · have hrest := ih b
        have hle := hrest b mem_cons_self
        rintro x (_ | ⟨_, hx⟩)
        · exact ((hlt.mp hab).trans_le hle).le
        · exact hrest x hx
      have hrest := ih a
      have hle := hrest a mem_cons_self
      rintro x (_ | ⟨_, _ | ⟨_, hx⟩⟩)
      · exact hle
      · exact (not_lt.mp (fun hc => hab (hlt.mpr hc))).trans hle
      · exact hrest x (mem_cons_of_mem _ hx)

variable {e : Core α (EncoderState α)} {victim : Scheduler α (EncoderState α) → Nat → α → Option α}
  {produced : List String} {s₀ : Scheduler α (EncoderState α)} {encDec disable : Bool}
  {has : Nat → String → Bool} {inp : ScheduleInput α} {admitted : Option (List α)}

namespace RunningPhase

/-- The victim is the one that the controller or the policy chooses. -/
def Chosen (e : Core α (EncoderState α)) (victim : Scheduler α (EncoderState α) → Nat → α → Option α)
    (st : RunningPhase α (EncoderState α)) (v : α) : Prop :=
  ∃ n x, chooseVictim e.policy (victim st.sched n x) st.sched = .ok v

theorem passOK_chosen
    (st : RunningPhase α (EncoderState α)) : PassOK e admitted victim (Chosen e victim) st :=
  Loop.meets_of_forall (fun _ _ _ _ _ _ => Loop.meets_of_forall
    (fun _ _ _ _ hv => ⟨_, _, hv⟩) _ _) _ _

/-- What is claimed in the first pass, with the requests as they were at its start. -/
structure Tracks (produced : List String) (s₀ : Scheduler α (EncoderState α))
    (st : RunningPhase α (EncoderState α)) : Prop where
  covered : Covered produced (fun x => (s₀.objs x).mmFeatures) st.scheduledEncoderInputs
    st.externalLoads st.sched.encoder
  features : ∀ x, (st.sched.objs x).mmFeatures = (s₀.objs x).mmFeatures
  rank : ∀ x, st.sched.rank x = s₀.rank x
  running : st.sched.running.Sublist s₀.running
  later : ∀ x ∈ st.sched.running.drop st.reqIndex, st.sched.objs x = s₀.objs x
  planned : ∀ x ∈ st.scheduledEncoderInputs.map Prod.fst,
    x ∈ st.sched.running.take st.reqIndex ∧ (s₀.objs x).Pending

/-- A request with encoder inputs to come is neither the controller's victim nor preferred by
the priority policy to one that is served after it. -/
def Spared (e : Core α (EncoderState α)) (victim : Scheduler α (EncoderState α) → Nat → α → Option α)
    (s₀ : Scheduler α (EncoderState α)) : Prop :=
  ∀ v r, [v, r].Sublist s₀.running → (s₀.objs v).Pending →
    (∀ s n x, victim s n x ≠ some v) ∧ (e.policy = .priority → s₀.rank v < s₀.rank r)

section pass
variable {st st' : RunningPhase α (EncoderState α)}

omit [LinearOrder α] in
theorem Tracks.victim_unplanned (hnodup : s₀.running.Nodup) (hspared : Spared e victim s₀)
    (h : Tracks produced s₀ st) {r v : α} (hr : st.sched.running[st.reqIndex]? = some r)
    (hv : Chosen e victim st v) : v ∉ st.scheduledEncoderInputs.map Prod.fst := by
  intro hin
  obtain ⟨htake, hpending⟩ := h.planned v hin
  have hnd := hnodup.sublist h.running
  have hdrop := drop_reqIndex hr
  have hsplit := take_append_drop st.reqIndex st.sched.running
  have hpair : [v, r].Sublist st.sched.running := by
    rw [← hsplit, hdrop]
    exact (singleton_sublist.mpr htake).append
      (singleton_sublist.mpr mem_cons_self)
  obtain ⟨hctrl, hprio⟩ := hspared v r (hpair.trans h.running) hpending
  obtain ⟨n, x, hchoice⟩ := hv
  unfold chooseVictim at hchoice
  cases hsel : victim st.sched n x with
  | some w =>
    simp only [hsel] at hchoice
    cases hchoice
    exact hctrl _ _ _ hsel
  | none =>
    simp only [hsel] at hchoice
    cases hpol : e.policy with
    | priority =>
      simp only [hpol] at hchoice
      cases hmax : maxByPriority st.sched st.sched.running with
      | none =>
        simp only [hmax] at hchoice
        cases hchoice
      | some w =>
        simp only [hmax] at hchoice
        cases hchoice
        have hle := maxByPriority_spec hmax r (mem_of_getElem? hr)
        rw [h.rank, h.rank] at hle
        exact absurd (hprio hpol) (not_lt.mpr hle)
    | fcfs =>
      simp only [hpol] at hchoice
      cases hlast : st.sched.running.getLast? with
      | none =>
        simp only [hlast] at hchoice
        cases hchoice
      | some w =>
        simp only [hlast] at hchoice
        cases hchoice
        -- the last request stands at or behind `req_index`
        rw [← hsplit, nodup_append] at hnd
        have hmem : v ∈ st.sched.running.drop st.reqIndex := by
          rw [← hsplit, getLast?_append_of_ne_nil _ (by simp [hdrop])] at hlast
          exact mem_of_getLast? hlast
        exact hnd.2.2 v htake v hmem rfl

omit [LinearOrder α] in
theorem Tracks.skip (h : Tracks produced s₀ st) : Tracks produced s₀ st.skip where
  covered := h.covered
  features := h.features
  rank := h.rank
  running := h.running
  later x hx := h.later x (drop_subset_drop_left _ (Nat.le_succ _) hx)
  planned x hx := (h.planned x hx).imp_left
    (fun hm => take_subset_take_left _ (Nat.le_succ _) hm)

theorem takeOut_unplanned {v : α} (hv : v ∉ st.scheduledEncoderInputs.map Prod.fst) :
    (st.takeOut v).scheduledEncoderInputs = st.scheduledEncoderInputs ∧
      (st.takeOut v).externalLoads = st.externalLoads := by
  unfold takeOut
  dsimp only
  split
  · refine ⟨?_, rfl⟩
    refine filter_eq_self.mpr (fun x hx => ?_)
    have hne : x.1 ≠ v := fun heq => hv (heq ▸ mem_map_of_mem hx)
    simpa using hne
  · exact ⟨rfl, rfl⟩

variable (henc : e.enc = .multimodal encDec disable has) {plan : EncoderPlan}
include henc

theorem Tracks.planEncoder (h : Tracks produced s₀ st) {req : Request α} {n : Int}
    (hplan : st.planEncoder e req n = .ok (st', plan)) :
    Tracks produced s₀ st' ∧ (plan.inputs = [] ∨ req.Pending) := by
  rcases planEncoder_ok hplan with ⟨encoder, htry, rfl⟩ | ⟨rfl, rfl⟩
  · rw [henc] at htry
    obtain ⟨-, hshrinks, hpending⟩ := trySchedule_shrinks htry
    exact ⟨⟨h.covered.shrinks hshrinks, h.features, h.rank, h.running, h.later, h.planned⟩,
      hpending⟩
  · exact ⟨h, .inl rfl⟩

variable (hnodup : s₀.running.Nodup) (hspared : Spared e victim s₀)
include hnodup hspared

theorem Tracks.preempts (h : Tracks produced s₀ st) (hpre : Preempts e (Chosen e victim) st st') :
    Tracks produced s₀ st' := by
  cases hpre with
  | intro r n kv v hr hn halloc hV hpre =>
    have hkv : Tracks produced s₀ (st.withKV kv) :=
      ⟨h.covered, h.features, h.rank, h.running, h.later, h.planned⟩
    have hv := hkv.victim_unplanned hnodup hspared hr hV
    obtain ⟨hmem, -, rfl⟩ := preempt_ok hpre
    obtain ⟨hinputs, hloads⟩ := takeOut_unplanned hv
    have hrunning := takeOut_running (st.withKV kv) v
    have hindex := takeOut_reqIndex (st.withKV kv) v
    have hobjs (x : α) (hx : x ≠ v) :
        (((st.withKV kv).takeOut v).sched.preempted e v).objs x = st.sched.objs x := by
      rw [takeOut_sched]
      simp [preempted, hx, withKV]
    have hself : (((st.withKV kv).takeOut v).sched.preempted e v).objs v =
        (st.sched.objs v).preempt := by
      rw [takeOut_sched]
      simp [preempted, withKV]
    refine ⟨?_, fun x => ?_, fun x => ?_, ?_, fun x hx => ?_, fun x hx => ?_⟩
    · simp only [hinputs, hloads]
      refine hkv.covered.same ?_
      rw [takeOut_sched]
      simp only [preempted, henc]
      exact free_claims encDec disable has _ _
    · by_cases hx : x = v
      · subst hx
        simp only [hself]
        exact h.features x
      · simp only [hobjs x hx]
        exact h.features x
    · unfold Scheduler.rank
      by_cases hx : x = v
      · subst hx
        simp only [hself]
        exact h.rank x
      · simp only [hobjs x hx]
        exact h.rank x
    · change ((st.withKV kv).takeOut v).sched.running.Sublist _
      rw [hrunning]
      exact (erase_sublist).trans h.running
    · change x ∈ ((st.withKV kv).takeOut v).sched.running.drop ((st.withKV kv).takeOut v).reqIndex
        at hx
      rw [hrunning, hindex] at hx
      have hne : x ≠ v := by
        rintro rfl
        exact (hnodup.sublist h.running).not_mem_erase (mem_of_mem_drop hx)
      simp only [hobjs x hne]
      exact h.later x (mem_drop_erase hx)
    · simp only [hinputs] at hx
      obtain ⟨htake, hpending⟩ := hkv.planned x hx
      have hne : x ≠ v := fun heq => hv (heq ▸ hx)
      refine ⟨?_, hpending⟩
      change x ∈ ((st.withKV kv).takeOut v).sched.running.take ((st.withKV kv).takeOut v).reqIndex
      rw [hrunning, hindex]
      exact mem_take_erase htake hne

omit hspared in
theorem Tracks.record (h : Tracks produced s₀ st) {r : α} {n : Int} {blocks : List (List Nat)}
    {encoder : EncoderState α} (hr : st.sched.running[st.reqIndex]? = some r)
    (hpending : plan.inputs = [] ∨ (s₀.objs r).Pending)
    (halloc : e.enc.allocateAll st.sched.encoder (st.sched.objs r)
      (plan.inputs ++ plan.externalInputs) = .ok encoder) :
    Tracks produced s₀ (st.record r n blocks plan encoder) := by
  have hdrop := drop_reqIndex hr
  have hnd := hnodup.sublist h.running
  rw [← take_append_drop st.reqIndex st.sched.running, nodup_append, hdrop, nodup_cons] at hnd
  have hfresh : r ∉ st.scheduledEncoderInputs.map Prod.fst := fun hin =>
    hnd.2.2 r (h.planned r hin).1 r mem_cons_self rfl
  have hobjs (x : α) (hx : x ≠ r) :
      (st.record r n blocks plan encoder).sched.objs x = st.sched.objs x := by
    simp [RunningPhase.record, hx]
  have hself : (st.record r n blocks plan encoder).sched.objs r =
      { st.sched.objs r with specTokenIds := [] } := by
    simp [RunningPhase.record]
  rw [henc] at halloc
  have hclaims := allocateAll_claims halloc
  simp only [Request.mmHashes, h.features r] at hclaims
  refine ⟨?_, fun x => ?_, fun x => ?_, h.running, fun x hx => ?_, fun x hx => ?_⟩
  · have hcov := h.covered.allocated hfresh hclaims
    simp only [RunningPhase.record, Request.mmHashes, h.features r]
    exact hcov
  · by_cases hx : x = r
    · subst hx
      rw [hself]
      exact h.features x
    · rw [hobjs x hx]
      exact h.features x
  · unfold Scheduler.rank
    by_cases hx : x = r
    · subst hx
      rw [hself]
      exact h.rank x
    · rw [hobjs x hx]
      exact h.rank x
  · have hne : x ≠ r := by
      rintro rfl
      exact hnd.2.1.1 hx
    rw [hobjs x hne]
    exact h.later x (by rw [hdrop]; exact mem_cons_of_mem _ hx)
  · have hlast : r ∈ st.sched.running.take (st.reqIndex + 1) := by
      rw [take_add_one, hr]
      simp
    have hold (hx : x ∈ st.scheduledEncoderInputs.map Prod.fst) :
        x ∈ st.sched.running.take (st.reqIndex + 1) ∧ (s₀.objs x).Pending :=
      (h.planned x hx).imp_left (fun hm => take_subset_take_left _ (Nat.le_succ _) hm)
    rcases hpending with hnil | hpending
    · simp only [RunningPhase.record, if_pos hnil] at hx
      exact hold hx
    by_cases hnil : plan.inputs = []
    · simp only [RunningPhase.record, if_pos hnil] at hx
      exact hold hx
    simp only [RunningPhase.record, if_neg hnil, OrderedDict.keys_set, if_neg hfresh,
      mem_append, mem_singleton] at hx
    rcases hx with hx | rfl
    · exact hold hx
    · exact ⟨hlast, hpending⟩

theorem Tracks.step (h : Tracks produced s₀ st) {more : Bool}
    (hok : StepOK e admitted victim (Chosen e victim) st)
    (hstep : st.step e admitted victim = .ok (st', more)) : Tracks produced s₀ st' := by
  have hpres {a b : RunningPhase α (EncoderState α)} (ha : Tracks produced s₀ a)
      (hab : Relation.ReflTransGen (Preempts e (Chosen e victim)) a b) : Tracks produced s₀ b :=
    invariant_of_moves (fun _ _ hx hmove => hx.preempts henc hnodup hspared hmove) ha hab
  rcases step_ok hok hstep with rfl | rfl | ⟨r, wanted, plan, mid, hplan, rfl⟩ |
    ⟨r, wanted, plan, mid, hr, hplan, hend⟩
  · exact h
  · exact h.skip
  · exact (h.planEncoder henc hplan).1.skip
  obtain ⟨hmid, hpending⟩ := h.planEncoder henc hplan
  rcases hend with hpre | ⟨last, n, kv, blocks, encoder, hpre, hlast, -, -, -, halloc, rfl⟩
  · exact hpres hmid hpre
  have hl := hpres hmid hpre
  have hkv : Tracks produced s₀ (last.withKV kv) :=
    ⟨hl.covered, hl.features, hl.rank, hl.running, hl.later, hl.planned⟩
  -- the request has not changed since the pass began
  have hobj : st.sched.objs r = s₀.objs r := h.later r (by
    obtain ⟨hlt, rfl⟩ := List.getElem?_eq_some_iff.mp hr
    rw [drop_eq_getElem_cons hlt]
    exact mem_cons_self)
  exact hkv.record henc hnodup hlast (hobj ▸ hpending) halloc

theorem Tracks.loop (h : Tracks produced s₀ st) (hloop : st.loop e admitted victim = .ok st') :
    Tracks produced s₀ st' :=
  Loop.run_induct (I := Tracks produced s₀)
    (fun _ _ _ hx hok hstep => hx.step henc hnodup hspared hok hstep) h (passOK_chosen st) hloop

end pass
end RunningPhase

namespace WaitingPhase

/-- What is claimed in the second pass; the step is planned for running requests only. -/
structure Tracks (produced : List String) (s₀ : Scheduler α (EncoderState α))
    (st : WaitingPhase α (EncoderState α)) : Prop where
  covered : Covered produced (fun x => (s₀.objs x).mmFeatures) st.scheduledEncoderInputs
    st.externalLoads st.sched.encoder
  features : ∀ x, (st.sched.objs x).mmFeatures = (s₀.objs x).mmFeatures
  planned : ∀ x ∈ st.scheduledEncoderInputs.map Prod.fst, (st.sched.objs x).status = .running

section pass
variable {L : KVCacheManager α → Request α → Admission → Prop}
  {st st' : WaitingPhase α (EncoderState α)}

omit [LinearOrder α] in
theorem Tracks.changed (h : Tracks produced s₀ st)
    (hplan : st'.scheduledEncoderInputs = st.scheduledEncoderInputs ∧
      st'.externalLoads = st.externalLoads) (henc : st'.sched.encoder = st.sched.encoder) {r : α}
    (hidle : (st.sched.objs r).status ≠ .running)
    (hother : ∀ x, x ≠ r → st'.sched.objs x = st.sched.objs x)
    (hself : (st'.sched.objs r).mmFeatures = (st.sched.objs r).mmFeatures) :
    Tracks produced s₀ st' := by
  refine ⟨?_, fun x => ?_, fun x hx => ?_⟩
  · rw [hplan.1, hplan.2, henc]
    exact h.covered
  · by_cases hx : x = r
    · subst hx
      exact hself.trans (h.features x)
    · rw [hother x hx]
      exact h.features x
  · rw [hplan.1] at hx
    have hrun := h.planned x hx
    have hne : x ≠ r := fun heq => hidle (heq ▸ hrun)
    rw [hother x hne]
    exact hrun

theorem Tracks.move (henc : e.enc = .multimodal encDec disable has)
    (hcons : st.sched.Conserved st.stepSkippedWaiting) (h : Tracks produced s₀ st)
    (hmove : Move e inp L st st') : Tracks produced s₀ st' := by
  -- a request in a queue does not run
  have hidle {skipped : Bool} {r : α} (hr : st.sched.peekWaiting skipped = some r) :
      (st.sched.objs r).status ≠ .running := by
    intro hrun
    have hmem : r ∈ st.sched.waiting ++ st.sched.skippedWaiting ++ st.stepSkippedWaiting :=
      mem_append_left _ (mem_of_peekWaiting hr)
    have hlive : st.sched.Live r := Tally.live_of_mem hcons (.inr hmem)
    exact Tally.not_mem_rest hcons ((Tally.acts hcons r).mpr ⟨hlive.1, hrun⟩) hmem
  cases hmove with
  | encoder _ req adm n plan hplan =>
    rcases planEncoder_ok hplan with ⟨-, encoder, htry, rfl⟩ | ⟨rfl, -⟩
    · rw [henc] at htry
      exact ⟨h.covered.shrinks (trySchedule_shrinks htry).2.1, h.features, h.planned⟩
    · exact h
  | promote skipped r s ready hr hs =>
    obtain ⟨-, hsame, hother, -, hself⟩ := tryPromote_ok hs
    refine h.changed ⟨rfl, rfl⟩ hsame (hidle hr) hother ?_
    obtain hself | ⟨-, status, computed, hself, -⟩ := hself <;> simp only [hself]
  | skip skipped r hr =>
    exact h.changed ⟨rfl, rfl⟩ (by cases skipped <;> rfl) (hidle hr)
      (fun x _ => by cases skipped <;> rfl) (by cases skipped <;> rfl)
  | fail skipped r adm g kv hr hlookup hL halloc =>
    refine ⟨?_, h.features, h.planned⟩
    unfold failed
    split_ifs
    · rw [henc]
      exact h.covered.same (free_claims encDec disable has _ _)
    · exact h.covered
  | awaitLoad skipped r adm g kv blocks hr hlookup hL halloc hload =>
    have hobjs := awaitLoad_objs e st kv skipped r adm
    exact h.changed ⟨rfl, rfl⟩ (by cases skipped <;> rfl) (hidle hr)
      (fun x hx => by rw [hobjs, if_neg hx]) (by rw [hobjs, if_pos rfl])
  | start skipped r adm g kv blocks hr hlookup hL halloc hload hstatus encoder hall hgrant =>
    have hobjs := started_objs e st kv skipped r adm g encoder
    have hfresh : r ∉ st.scheduledEncoderInputs.map Prod.fst := fun hin =>
      hidle hr (h.planned r hin)
    rw [henc] at hall
    have hclaims := allocateAll_claims hall
    simp only [Request.mmHashes, h.features r] at hclaims
    refine ⟨?_, fun x => ?_, fun x hx => ?_⟩
    · have hcov := h.covered.allocated hfresh hclaims
      have hreq : (((st.withKV kv).sched.popWaiting e.policy skipped).objs r).mmFeatures =
          (s₀.objs r).mmFeatures := by
        cases skipped <;> exact h.features r
      simp only [started, Request.mmHashes, hreq]
      exact hcov
    · rw [hobjs]
      split_ifs with hx
      · exact h.features x
      · exact h.features x
    · rw [hobjs]
      split_ifs with hxr
      · rfl
      refine h.planned x ?_
      simp only [started, withKV] at hx
      split_ifs at hx with hnil
      · exact hx
      · rw [OrderedDict.keys_set, if_neg hfresh, mem_append, mem_singleton] at hx
        exact hx.resolve_right hxr

end pass
end WaitingPhase

namespace Scheduler

theorem plan_covered (henc : e.enc = .multimodal encDec disable has)
    {defer : Scheduler α (EncoderState α) → α → Bool} {s : Scheduler α (EncoderState α)}
    {p : Plan α (EncoderState α)} (hcons : s.Conserved [])
    (hspared : RunningPhase.Spared e victim s)
    (hprod : ∀ x, s.encoder.cache.Claims x → x ∈ produced) (hfreed : s.encoder.cache.freed = [])
    (hp : plan e inp admitted victim defer s = .ok p) :
    Covered produced (fun x => (s.objs x).mmFeatures) p.scheduledEncoderInputs p.externalLoads
        p.sched.encoder ∧
      ∀ x, (p.sched.objs x).mmFeatures = (s.objs x).mmFeatures := by
  simp only [plan, waitingPass, seq_ok_iff] at hp
  obtain ⟨st, hst, -, -, w, hw, hp⟩ := hp
  cases hp
  have hstart : RunningPhase.Tracks produced s (RunningPhase.init e.toSchedulerConfig
      { s with kv := s.kv.newStepStarts }) := by
    refine ⟨fun x hx => .inl ⟨hprod x hx, ?_⟩, fun _ => rfl, fun _ => rfl, Sublist.refl _,
      fun _ _ => rfl, by simp [RunningPhase.init]⟩
    change x ∉ s.encoder.cache.freed
    rw [hfreed]
    exact not_mem_nil
  have hfirst := hstart.loop henc (Tally.nodup_active hcons) hspared hst
  have hcons1 : st.sched.Conserved [] :=
    invariant_of_moves (I := fun st : RunningPhase α (EncoderState α) => st.sched.Conserved [])
      (fun _ _ h hmove => hmove.conserved h)
      (hcons.same_status ⟨rfl, rfl, rfl, rfl⟩ (fun _ => rfl))
      (RunningPhase.loop_moves (RunningPhase.passOK_true _) hst)
  have hbase (x : α) (hx : x ∈ st.scheduledEncoderInputs.map Prod.fst) :
      (st.sched.objs x).status = .running :=
    ((Tally.acts hcons1 x).mp (mem_of_mem_take (hfirst.planned x hx).1)).2
  split at hw
  · have hinv := invariant_of_moves (I := fun w : WaitingPhase α (EncoderState α) =>
      w.sched.Conserved w.stepSkippedWaiting ∧ WaitingPhase.Tracks produced s w)
      (fun _ _ h hmove => ⟨hmove.conserved h.1, h.2.move henc h.1 hmove⟩)
      ⟨hcons1, hfirst.covered, hfirst.features, hbase⟩
      (WaitingPhase.loop_moves (WaitingPhase.passOK_true _) hw)
    exact ⟨hinv.2.covered, hinv.2.features⟩
  · cases hw
    exact ⟨hfirst.covered, hfirst.features⟩

end Scheduler
end TailBlend
