import TailBlend.Schedule

/-! What one action of the two passes of `schedule()` can do. The invariants of the passes are
proved action by action. -/
namespace TailBlend
open List Relation
variable {α ε : Type} [LinearOrder α]

theorem invariant_of_moves {σ : Type} {R : σ → σ → Prop} {I : σ → Prop}
    (hmove : ∀ a b, I a → R a b → I b) {a b : σ} (ha : I a) (h : ReflTransGen R a b) :
    I b := by
  induction h with
  | refl => exact ha
  | tail _ hstep ih => exact hmove _ _ ih hstep

theorem getElem?_erase (l : List α) (v : α) (i : Nat) :
    (l.erase v)[i]? = if i < l.idxOf v then l[i]? else l[i + 1]? := by
  rw [erase_eq_eraseIdx_of_idxOf rfl, getElem?_eraseIdx]

theorem mem_take_erase {l : List α} {v x : α} {k : Nat} (hx : x ∈ l.take k) (hne : x ≠ v) :
    x ∈ (l.erase v).take (if l.idxOf v < k then k - 1 else k) := by
  obtain ⟨i, hi⟩ := mem_iff_getElem?.mp hx
  rw [getElem?_take] at hi
  split_ifs at hi with hik
  have hne' : i ≠ l.idxOf v := by
    rintro rfl
    obtain ⟨hlt, heq⟩ := List.getElem?_eq_some_iff.mp hi
    exact hne (heq.symm.trans (getElem_idxOf hlt))
  refine mem_iff_getElem?.mpr ⟨if i < l.idxOf v then i else i - 1, ?_⟩
  rw [getElem?_take, getElem?_erase, if_pos (by split_ifs <;> omega)]
  by_cases hlt : i < l.idxOf v
  · simp only [if_pos hlt, hi]
  · simp only [if_neg hlt]
    rw [if_neg (by omega), Nat.sub_add_cancel (by omega), hi]

theorem mem_drop_erase {l : List α} {v x : α} {k : Nat}
    (hx : x ∈ (l.erase v).drop (if l.idxOf v < k then k - 1 else k)) : x ∈ l.drop k := by
  obtain ⟨i, hi⟩ := mem_iff_getElem?.mp hx
  rw [getElem?_drop, getElem?_erase] at hi
  obtain ⟨j, hj, hkj⟩ : ∃ j, l[j]? = some x ∧ k ≤ j := by
    split_ifs at hi
    all_goals exact ⟨_, hi, by omega⟩
  refine mem_iff_getElem?.mpr ⟨j - k, ?_⟩
  rwa [getElem?_drop, Nat.add_sub_cancel' hkj]

namespace Scheduler

@[simp] theorem modify_objs_self (s : Scheduler α ε) (r : α) (f : Request α → Request α) :
    (s.modify r f).objs r = f (s.objs r) := by
  simp [modify]

@[simp] theorem modify_objs_of_ne (s : Scheduler α ε) {r x : α} (f : Request α → Request α)
    (h : x ≠ r) : (s.modify r f).objs x = s.objs x := by
  simp [modify, h]

theorem preemptRequest_ok {e : Core α ε} {s s' : Scheduler α ε} {r : α}
    (h : s.preemptRequest e r = .ok s') :
    (s.objs r).status = .running ∧ s' = s.preempted e r := by
  simp only [preemptRequest, seq_ok_iff, pyAssert_eq_ok] at h
  obtain ⟨-, hstatus, hs⟩ := h
  exact ⟨hstatus, (Except.ok.inj hs).symm⟩

end Scheduler

namespace RunningPhase

def withKV (st : RunningPhase α ε) (kv : KVCacheManager α) : RunningPhase α ε :=
  { st with sched := { st.sched with kv := kv } }

def allocates (e : Core α ε) (st : RunningPhase α ε) (r : α) (n : Int) :
    Except PyError (KVCacheManager α × Option (List (List Nat))) :=
  st.sched.kv.allocateSlots (st.sched.objs r).toKV (.running n e.numLookaheadTokens)

/-- The loop can grant `n` tokens to a running request: those that it wants under some budget,
or fewer of them because of its encoder inputs, and then a block-aligned part. -/
def Grants (e : Core α ε) (req : Request α) (n : Int) : Prop :=
  ∃ budget asked, splitTokens e.toSchedulerConfig req asked 0 0 = .ok n ∧
    (asked = wantedTokens e.toSchedulerConfig req budget ∨
      ∃ enc enc' plan room shift, e.enc.trySchedule enc req req.numComputedTokens
        (wantedTokens e.toSchedulerConfig req budget) room shift = .ok (enc', plan) ∧
        asked = plan.numNewTokens)

/-- An action of the first pass whose victims all meet `V`. -/
inductive Move (e : Core α ε) (V : RunningPhase α ε → α → Prop) :
    RunningPhase α ε → RunningPhase α ε → Prop
  | skip (st) : Move e V st st.skip
  | encoder (st st') (req : Request α) (n : Int) (plan : EncoderPlan)
      (hplan : st.planEncoder e req n = .ok (st', plan)) : Move e V st st'
  | schedule (st) (r : α) (n : Int) (kv : KVCacheManager α) (blocks : List (List Nat))
      (plan : EncoderPlan) (encoder : ε) (hr : st.sched.running[st.reqIndex]? = some r)
      (hn : n ≠ 0) (halloc : st.allocates e r n = .ok (kv, some blocks))
      (hgrant : Grants e (st.sched.objs r) n) :
      Move e V st ((st.withKV kv).record r n blocks plan encoder)
  | preempt (st st') (r : α) (n : Int) (kv : KVCacheManager α) (v : α)
      (hr : st.sched.running[st.reqIndex]? = some r) (hn : n ≠ 0)
      (halloc : st.allocates e r n = .ok (kv, none))
      (hV : V (st.withKV kv) v) (hpre : (st.withKV kv).preempt e v = .ok st') : Move e V st st'

/-- A preemption that makes room for the request at `req_index`. -/
inductive Preempts (e : Core α ε) (V : RunningPhase α ε → α → Prop) :
    RunningPhase α ε → RunningPhase α ε → Prop
  | intro (st st') (r : α) (n : Int) (kv : KVCacheManager α) (v : α)
      (hr : st.sched.running[st.reqIndex]? = some r) (hn : n ≠ 0)
      (halloc : st.allocates e r n = .ok (kv, none))
      (hV : V (st.withKV kv) v) (hpre : (st.withKV kv).preempt e v = .ok st') : Preempts e V st st'

variable {e : Core α ε} {st st' : RunningPhase α ε} {req : Request α} {n : Int} {plan : EncoderPlan}
  {v r : α} {x y : RunningPhase α ε × Option (List (List Nat))} {more : Bool}

theorem Preempts.move {V : RunningPhase α ε → α → Prop} (h : Preempts e V st st') :
    Move e V st st' := by
  cases h with
  | intro r n kv v hr hn halloc hV hpre => exact .preempt st st' r n kv v hr hn halloc hV hpre

omit [LinearOrder α] in
theorem planEncoder_ok (h : st.planEncoder e req n = .ok (st', plan)) :
    (∃ encoder, e.enc.trySchedule st.sched.encoder req req.numComputedTokens n
        st.encoderComputeBudget (if e.useEagle then 1 else 0) = .ok (encoder, plan) ∧
      st' = { st with sched := { st.sched with encoder := encoder } }) ∨
    st' = st ∧ plan = ⟨[], n, st.encoderComputeBudget, []⟩ := by
  unfold planEncoder at h
  by_cases hin : req.hasEncoderInputs = true
  · rw [if_pos hin, seq_ok_iff] at h
    obtain ⟨⟨encoder, plan'⟩, htry, h⟩ := h
    cases h
    exact .inl ⟨encoder, htry, rfl⟩
  · rw [if_neg hin] at h
    cases h
    exact .inr ⟨rfl, rfl⟩

omit [LinearOrder α] in
theorem planEncoder_sched (h : st.planEncoder e req n = .ok (st', plan)) :
    ∃ encoder, st' = { st with sched := { st.sched with encoder := encoder } } := by
  rcases planEncoder_ok h with ⟨encoder, -, hst⟩ | ⟨rfl, -⟩
  · exact ⟨encoder, hst⟩
  · exact ⟨st'.sched.encoder, rfl⟩

omit [LinearOrder α] in
theorem drop_reqIndex (hr : st.sched.running[st.reqIndex]? = some r) :
    st.sched.running.drop st.reqIndex = r :: st.sched.running.drop (st.reqIndex + 1) := by
  rw [drop_eq_getElem?_toList_append, hr]
  rfl

section takeOut
variable (st : RunningPhase α ε) (v : α)

theorem takeOut_running : (st.takeOut v).sched.running = st.sched.running.erase v := by
  unfold takeOut
  rw [erase_eq_eraseIdx_of_idxOf rfl]
  dsimp only
  split <;> rfl

theorem takeOut_reqIndex : (st.takeOut v).reqIndex =
    if st.sched.running.idxOf v < st.reqIndex then st.reqIndex - 1 else st.reqIndex := by
  unfold takeOut
  dsimp only
  split <;> rfl

theorem takeOut_sched : (st.takeOut v).sched =
    { st.sched with running := st.sched.running.erase v } := by
  rw [← takeOut_running]
  unfold takeOut
  dsimp only
  split <;> rfl

end takeOut

theorem preempt_ok (h : st.preempt e v = .ok st') :
    v ∈ st.sched.running ∧ (st.sched.objs v).status = .running ∧
      st' = { st.takeOut v with
        sched := (st.takeOut v).sched.preempted e v
        preemptedReqs := st.preemptedReqs ++ [v] } := by
  unfold preempt at h
  by_cases hv : v ∉ st.sched.running
  · rw [if_pos hv] at h
    cases h
  rw [if_neg hv, seq_ok_iff] at h
  obtain ⟨s, hs, hst⟩ := h
  obtain ⟨hstatus, rfl⟩ := Scheduler.preemptRequest_ok hs
  rw [takeOut_sched] at hstatus
  exact ⟨not_not.mp hv, hstatus, (Except.ok.inj hst).symm⟩

theorem preempt_getElem? (hr : st.sched.running[st.reqIndex]? = some r) (hv : v ≠ r)
    (h : st.preempt e v = .ok st') : st'.sched.running[st'.reqIndex]? = some r := by
  obtain ⟨hmem, -, rfl⟩ := preempt_ok h
  change (st.takeOut v).sched.running[(st.takeOut v).reqIndex]? = some r
  rw [takeOut_running, takeOut_reqIndex, erase_eq_eraseIdx_of_idxOf rfl]
  have hidx : st.sched.running[st.sched.running.idxOf v]? = some v := getElem?_idxOf hmem
  have hne : st.sched.running.idxOf v ≠ st.reqIndex := by
    intro heq
    rw [heq, hr] at hidx
    exact hv (Option.some_inj.mp hidx).symm
  by_cases hlt : st.sched.running.idxOf v < st.reqIndex
  · rw [if_pos hlt, getElem?_eraseIdx_of_ge (by omega), Nat.sub_add_cancel (by omega), hr]
  · rw [if_neg hlt, getElem?_eraseIdx_of_lt (by omega), hr]

theorem preempt_objs (h : st.preempt e v = .ok st') (x : α) :
    st'.sched.objs x = if x = v then (st.sched.objs x).preempt else st.sched.objs x := by
  obtain ⟨-, -, rfl⟩ := preempt_ok h
  rw [takeOut_sched]
  rfl

/-! The conditions on the victims of a pass, and the pass as a sequence of actions. -/

/-- The victim of a failed allocation for `r`, if it comes to that, meets `V`. -/
def VictimOK (e : Core α ε) (victim : Scheduler α ε → Nat → α → Option α)
    (V : RunningPhase α ε → α → Prop) (r : α) (n : Int)
    (x : RunningPhase α ε × Option (List (List Nat))) : Prop :=
  ∀ kv v, x.1.allocates e r n = .ok (kv, none) →
    chooseVictim e.policy (victim (x.1.withKV kv).sched x.1.preemptedReqs.length r)
      (x.1.withKV kv).sched = .ok v → V (x.1.withKV kv) v

/-- Every victim chosen for the request at `req_index` meets `V`. -/
def StepOK (e : Core α ε) (admitted : Option (List α))
    (victim : Scheduler α ε → Nat → α → Option α) (V : RunningPhase α ε → α → Prop)
    (st : RunningPhase α ε) : Prop :=
  ∀ st' r n plan, st.next e admitted = .ok (.allocate st' r n plan) →
    Loop.Meets (allocateRound e victim r n) (VictimOK e victim V r n)
      (st'.sched.running.length + 1) (st', none)

def PassOK (e : Core α ε) (admitted : Option (List α))
    (victim : Scheduler α ε → Nat → α → Option α) (V : RunningPhase α ε → α → Prop)
    (st : RunningPhase α ε) : Prop :=
  Loop.Meets (step e admitted victim) (StepOK e admitted victim V)
    (st.sched.running.length + 1) st

variable {e : Core α ε} {admitted : Option (List α)}
  {victim : Scheduler α ε → Nat → α → Option α} {V : RunningPhase α ε → α → Prop}

theorem allocateRound_ok (h : allocateRound e victim r n x = .ok (y, more)) :
    (∃ kv blocks, x.1.allocates e r n = .ok (kv, some blocks) ∧
      y = (x.1.withKV kv, some blocks) ∧ more = false) ∨
    ∃ kv v st, x.1.allocates e r n = .ok (kv, none) ∧
      chooseVictim e.policy (victim (x.1.withKV kv).sched x.1.preemptedReqs.length r)
        (x.1.withKV kv).sched = .ok v ∧
      (x.1.withKV kv).preempt e v = .ok st ∧ y = (st, none) ∧ more = decide (v ≠ r) := by
  simp only [allocateRound, seq_ok_iff] at h
  obtain ⟨⟨kv, newBlocks⟩, halloc, h⟩ := h
  cases newBlocks with
  | some blocks =>
    cases h
    exact .inl ⟨kv, blocks, halloc, rfl, rfl⟩
  | none =>
    simp only [seq_ok_iff] at h
    obtain ⟨v, hv, st, hst, h⟩ := h
    cases h
    exact .inr ⟨kv, v, st, halloc, hv, hst, rfl, rfl⟩

theorem allocateLoop_preempts (hn : n ≠ 0) {fuel : Nat}
    (hr : x.1.sched.running[x.1.reqIndex]? = some r) (hx : x.2 = none)
    (hok : Loop.Meets (allocateRound e victim r n) (VictimOK e victim V r n) fuel x)
    (h : Loop.run (allocateRound e victim r n) fuel x = .ok y) :
    (y.2 = none ∧ ReflTransGen (Preempts e V) x.1 y.1) ∨
    ∃ st kv blocks, ReflTransGen (Preempts e V) x.1 st ∧
      st.sched.running[st.reqIndex]? = some r ∧ st.sched.objs r = x.1.sched.objs r ∧
      st.allocates e r n = .ok (kv, some blocks) ∧ y = (st.withKV kv, some blocks) := by
  induction fuel generalizing x with
  | zero =>
    obtain rfl : x = y := Except.ok.inj h
    exact .inl ⟨hx, .refl⟩
  | succ fuel ih =>
    obtain hlast | ⟨mid, hmid, hrest⟩ := Loop.run_succ h
    · obtain ⟨kv, blocks, halloc, rfl, -⟩ | ⟨kv, v, st, halloc, hv, hpre, rfl, -⟩ :=
        allocateRound_ok hlast
      · exact .inr ⟨x.1, kv, blocks, .refl, hr, rfl, halloc, rfl⟩
      · exact .inl ⟨rfl, .single (.intro x.1 st r n kv v hr hn halloc
          (hok.1 kv v halloc hv) hpre)⟩
    obtain ⟨-, -, -, -, hmore⟩ | ⟨kv, v, st, halloc, hv, hpre, rfl, hmore⟩ := allocateRound_ok hmid
    · cases hmore
    have hne : v ≠ r := of_decide_eq_true hmore.symm
    have hkv : (x.1.withKV kv).sched.running[(x.1.withKV kv).reqIndex]? = some r := hr
    have hr' : st.sched.running[st.reqIndex]? = some r := preempt_getElem? hkv hne hpre
    have hmove : Preempts e V x.1 st :=
      .intro x.1 st r n kv v hr hn halloc (hok.1 kv v halloc hv) hpre
    have hobj : st.sched.objs r = x.1.sched.objs r := by
      rw [preempt_objs hpre, if_neg (Ne.symm hne)]
      rfl
    obtain ⟨hy, hmoves⟩ | ⟨st', kv', blocks, hmoves, hr'', hobj', hst⟩ :=
      ih (x := (st, none)) hr' rfl (hok.2 _ hmid) hrest
    · exact .inl ⟨hy, hmoves.head hmove⟩
    · exact .inr ⟨st', kv', blocks, hmoves.head hmove, hr'', hobj'.trans hobj, hst⟩

def Leads (e : Core α ε) (st : RunningPhase α ε) : Next α ε → Prop
  | .stop => True
  | .skip st' => st' = st ∨
      ∃ r wanted plan, st.planEncoder e (st.sched.objs r) wanted = .ok (st', plan)
  | .allocate st' r n plan => st.sched.running[st.reqIndex]? = some r ∧ n ≠ 0 ∧
      Grants e (st.sched.objs r) n ∧
      ∃ wanted, st.planEncoder e (st.sched.objs r) wanted = .ok (st', plan)

omit [LinearOrder α] in
theorem grants_of_plan {budget : Int}
    (hplan : st.planEncoder e req (wantedTokens e.toSchedulerConfig req budget) = .ok (st', plan))
    (hsplit : splitTokens e.toSchedulerConfig req plan.numNewTokens 0 0 = .ok n) :
    Grants e req n := by
  refine ⟨budget, plan.numNewTokens, hsplit, ?_⟩
  rcases planEncoder_ok hplan with ⟨encoder, htry, -⟩ | ⟨-, rfl⟩
  · exact .inr ⟨_, encoder, plan, _, _, htry, rfl⟩
  · exact .inl rfl

theorem next_leads {x : Next α ε} (h : st.next e admitted = .ok x) : Leads e st x := by
  unfold next at h
  cases hr : st.sched.running[st.reqIndex]? with
  | none =>
    rw [hr] at h
    cases h
    trivial
  | some r =>
    simp only [hr] at h
    by_cases hbudget : st.tokenBudget ≤ 0
    · rw [if_pos hbudget] at h
      cases h
      trivial
    rw [if_neg hbudget] at h
    by_cases hskip : admitted.any (fun ids => r ∉ ids) = true ∨
        reachedMaxTokens (st.sched.objs r) = true
    · rw [if_pos hskip] at h
      cases h
      exact .inl rfl
    rw [if_neg hskip] at h
    simp only [seq_ok_iff] at h
    obtain ⟨⟨mid, plan⟩, hplan, n, hsplit, h⟩ := h
    by_cases hn : n = 0
    · rw [if_pos hn] at h
      cases h
      exact .inr ⟨r, _, plan, hplan⟩
    · rw [if_neg hn] at h
      cases h
      exact ⟨hr, hn, grants_of_plan hplan hsplit, _, hplan⟩

theorem step_ok (hok : StepOK e admitted victim V st)
    (h : st.step e admitted victim = .ok (st', more)) :
    st' = st ∨ st' = st.skip ∨
    (∃ r wanted plan mid, st.planEncoder e (st.sched.objs r) wanted = .ok (mid, plan) ∧
      st' = mid.skip) ∨
    ∃ r wanted plan mid, st.sched.running[st.reqIndex]? = some r ∧
      st.planEncoder e (st.sched.objs r) wanted = .ok (mid, plan) ∧
      (ReflTransGen (Preempts e V) mid st' ∨
      ∃ last n kv blocks encoder, ReflTransGen (Preempts e V) mid last ∧
        last.sched.running[last.reqIndex]? = some r ∧ n ≠ 0 ∧
        last.allocates e r n = .ok (kv, some blocks) ∧ Grants e (last.sched.objs r) n ∧
        e.enc.allocateAll last.sched.encoder (last.sched.objs r)
          (plan.inputs ++ plan.externalInputs) = .ok encoder ∧
        st' = (last.withKV kv).record r n blocks plan encoder) := by
  simp only [step, seq_ok_iff] at h
  obtain ⟨x, hx, h⟩ := h
  have hleads : Leads e st x := next_leads hx
  cases x with
  | stop =>
    cases h
    exact .inl rfl
  | skip mid =>
    cases h
    rcases hleads with rfl | ⟨r, wanted, plan, hplan⟩
    · exact .inr (.inl rfl)
    · exact .inr (.inr (.inl ⟨r, wanted, plan, mid, hplan, rfl⟩))
  | allocate mid r n plan =>
    obtain ⟨hr, hn, hgrant, wanted, hplan⟩ := hleads
    have hmid : mid.sched.running[mid.reqIndex]? = some r ∧ mid.sched.objs r = st.sched.objs r := by
      obtain ⟨encoder, rfl⟩ := planEncoder_sched hplan
      exact ⟨hr, rfl⟩
    refine .inr (.inr (.inr ⟨r, wanted, plan, mid, hr, hplan, ?_⟩))
    rw [seq_ok_iff] at h
    obtain ⟨y, hy, h⟩ := h
    obtain ⟨hnone, hpre⟩ | ⟨last, kv, blocks, hpre, hlast, hobj, halloc, rfl⟩ :=
      allocateLoop_preempts (x := (mid, none)) hn hmid.1 rfl (hok _ _ _ _ hx) hy
    · obtain ⟨st1, res⟩ := y
      obtain rfl : res = none := hnone
      cases h
      exact .inl hpre
    simp only [seq_ok_iff] at h
    obtain ⟨encoder, henc, h⟩ := h
    cases h
    exact .inr ⟨last, n, kv, blocks, encoder, hpre, hlast, hn, halloc,
      by rwa [hobj, hmid.2], henc, rfl⟩

theorem step_moves (hok : StepOK e admitted victim V st)
    (h : st.step e admitted victim = .ok (st', more)) :
    ReflTransGen (Move e V) st st' := by
  rcases step_ok hok h with rfl | rfl | ⟨r, wanted, plan, mid, hplan, rfl⟩ |
    ⟨r, wanted, plan, mid, hr, hplan, hend⟩
  · exact .refl
  · exact .single (.skip st)
  · exact ReflTransGen.tail (.single (.encoder st mid _ wanted plan hplan)) (.skip mid)
  have hmid : ReflTransGen (Move e V) st mid :=
    .single (.encoder st mid _ wanted plan hplan)
  have hmoves {x : RunningPhase α ε} (h : ReflTransGen (Preempts e V) mid x) :
      ReflTransGen (Move e V) mid x :=
    ReflTransGen.mono (fun _ _ h => Preempts.move h) _ _ h
  rcases hend with hpre |
    ⟨last, n, kv, blocks, encoder, hpre, hlast, hn, halloc, hgrant, -, rfl⟩
  · exact hmid.trans (hmoves hpre)
  · exact (hmid.trans (hmoves hpre)).tail
      (.schedule last r n kv blocks plan encoder hlast hn halloc hgrant)

theorem loop_moves (hok : PassOK e admitted victim V st) (h : st.loop e admitted victim = .ok st') :
    ReflTransGen (Move e V) st st' :=
  Loop.run_induct (I := fun x => ReflTransGen (Move e V) st x)
    (fun _ _ _ hx hQ hstep => hx.trans (step_moves hQ hstep)) .refl hok h

theorem passOK_true (st : RunningPhase α ε) :
    PassOK e admitted victim (fun _ _ => True) st :=
  Loop.meets_of_forall (fun _ _ _ _ _ _ => Loop.meets_of_forall
    (fun _ _ _ _ _ => trivial) _ _) _ _

end RunningPhase

/-- A blocked request becomes ready; after a full load its last token is computed again. -/
structure Request.Promoted (req req' : Request α) : Prop where
  blocked : req.status = .waitingForRemoteKvs ∨ req.status = .waitingForStructuredOutputGrammar
  ready : ∃ status computed,
    req' = { req with status := status, numComputedTokens := computed } ∧
    (status = .waiting ∨ status = .preempted) ∧
    (computed = req.numComputedTokens ∨
      req.numComputedTokens = req.numTokens ∧ computed = req.numTokens - 1)

namespace Scheduler

structure SameQueues (s s' : Scheduler α ε) : Prop where
  running : s'.running = s.running
  waiting : s'.waiting = s.waiting
  skippedWaiting : s'.skippedWaiting = s.skippedWaiting
  requests : s'.requests = s.requests

omit [LinearOrder α] in
theorem SameQueues.refl (s : Scheduler α ε) : SameQueues s s := ⟨rfl, rfl, rfl, rfl⟩

variable {s s' : Scheduler α ε}

omit [LinearOrder α] in
theorem SameQueues.trans {s'' : Scheduler α ε} (h : SameQueues s s') (h' : SameQueues s' s'') :
    SameQueues s s'' :=
  ⟨h'.running.trans h.running, h'.waiting.trans h.waiting,
    h'.skippedWaiting.trans h.skippedWaiting, h'.requests.trans h.requests⟩

theorem sameQueues_modify (s : Scheduler α ε) (r : α) (f : Request α → Request α) :
    SameQueues s (s.modify r f) := ⟨rfl, rfl, rfl, rfl⟩

omit [LinearOrder α] in
theorem SameQueues.peekWaiting (h : SameQueues s s') (skipped : Bool) :
    s'.peekWaiting skipped = s.peekWaiting skipped := by
  unfold Scheduler.peekWaiting
  rw [h.waiting, h.skippedWaiting]

theorem tryPromote_ok {inp : ScheduleInput α} {r : α} {ready : Bool}
    (h : s.tryPromote inp r = .ok (s', ready)) :
    SameQueues s s' ∧ s'.encoder = s.encoder ∧ (∀ x, x ≠ r → s'.objs x = s.objs x) ∧
      (s.objs r).status.isBlockedWaiting = true ∧
      (s'.objs r = s.objs r ∨ (s.objs r).Promoted (s'.objs r)) := by
  unfold tryPromote at h
  cases hs : (s.objs r).status with
  | waitingForRemoteKvs =>
    simp only [hs] at h
    by_cases hr : r ∉ s.finishedRecvingKvReqIds
    · rw [if_pos hr] at h
      cases h
      exact ⟨.refl s, rfl, fun _ _ => rfl, rfl, .inl rfl⟩
    rw [if_neg hr] at h
    simp only [updateWaitingForRemoteKv, seq_ok_iff] at h
    obtain ⟨-, -, s1, ⟨kv, -, h1⟩, h2⟩ := h
    cases h1
    cases h2
    refine ⟨⟨rfl, rfl, rfl, rfl⟩, rfl, fun x hx => by simp [modify, hx], rfl, .inr ⟨.inl hs,
      if (s.objs r).numPreemptions ≠ 0 then .preempted else .waiting,
      if r ∉ s.failedRecvingKvReqIds ∧ (s.objs r).numComputedTokens = (s.objs r).numTokens then
        (s.objs r).numTokens - 1 else (s.objs r).numComputedTokens, by simp [modify], ?_, ?_⟩⟩
    · split
      · exact .inr rfl
      · exact .inl rfl
    split
    · rename_i hfull
      exact .inr ⟨hfull.2, rfl⟩
    · exact .inl rfl
  | waitingForStructuredOutputGrammar =>
    simp only [hs] at h
    by_cases hr : inp.grammarReady r = true
    · rw [if_pos hr] at h
      cases h
      exact ⟨sameQueues_modify s r _, rfl, fun x hx => by simp [hx], rfl, .inr ⟨.inr hs, .waiting,
        (s.objs r).numComputedTokens, by simp, .inl rfl, .inl rfl⟩⟩
    · rw [if_neg hr] at h
      cases h
      exact ⟨.refl s, rfl, fun _ _ => rfl, rfl, .inl rfl⟩
  | waitingForStreamingReq =>
    simp only [hs, seq_ok_iff] at h
    obtain ⟨-, -, h⟩ := h
    cases h
    exact ⟨.refl s, rfl, fun _ _ => rfl, rfl, .inl rfl⟩
  | waiting | running | preempted | finishedStopped | finishedLengthCapped | finishedAborted
  | finishedIgnored | finishedError | finishedRepetition =>
    simp only [hs] at h
    cases h

end Scheduler

namespace WaitingPhase

def withKV (st : WaitingPhase α ε) (kv : KVCacheManager α) : WaitingPhase α ε :=
  { st with sched := { st.sched with kv := kv } }

def allocates (e : Core α ε) (st : WaitingPhase α ε) (r : α) (adm : Admission) (g : TokenGrant) :
    Except PyError (KVCacheManager α × Option (List (List Nat))) :=
  st.sched.kv.allocateSlots (st.sched.objs r).toKV (slotArgs e (st.sched.objs r) adm g)

def failed (e : Core α ε) (st : WaitingPhase α ε) (r : α) (kv : KVCacheManager α) :
    WaitingPhase α ε :=
  { st with sched := { st.sched with
    kv := kv
    encoder := if (st.sched.objs r).hasEncoderInputs then
      e.enc.free st.sched.encoder (st.sched.objs r) else st.sched.encoder } }

/-- The loop can grant `n` tokens to a waiting request: those that it wants, within some budget,
or fewer of them because of its encoder inputs, and then a block-aligned part. -/
def Grants (e : Core α ε) (req : Request α) (adm : Admission) (n : Int) : Prop :=
  ∃ budget asked, splitTokens e.toSchedulerConfig req asked adm.numNewLocalComputedTokens
      adm.numExternalComputedTokens = .ok n ∧ (e.needMambaBlockAlignedSplit = true → n ≠ 0) ∧
    0 < min (wantedTokens e.toSchedulerConfig req adm) budget ∧
    (asked = min (wantedTokens e.toSchedulerConfig req adm) budget ∨
      asked ≠ 0 ∧ ∃ enc enc' plan room shift, e.enc.trySchedule enc req adm.numComputedTokens
        (min (wantedTokens e.toSchedulerConfig req adm) budget) room shift = .ok (enc', plan) ∧
        asked = plan.numNewTokens)

/-- An action of the second pass whose lookups all meet `L`. -/
inductive Move (e : Core α ε) (inp : ScheduleInput α)
    (L : KVCacheManager α → Request α → Admission → Prop) :
    WaitingPhase α ε → WaitingPhase α ε → Prop
  | encoder (st st') (req : Request α) (adm : Admission) (n : Int) (plan : EncoderPlan)
      (hplan : st.planEncoder e req adm n = .ok (st', plan)) : Move e inp L st st'
  | promote (st) (skipped : Bool) (r : α) (s : Scheduler α ε) (ready : Bool)
      (hr : st.sched.peekWaiting skipped = some r)
      (hs : st.sched.tryPromote inp r = .ok (s, ready)) : Move e inp L st { st with sched := s }
  | skip (st) (skipped : Bool) (r : α) (hr : st.sched.peekWaiting skipped = some r) :
      Move e inp L st (st.skip e skipped r)
  | fail (st) (skipped : Bool) (r : α) (adm : Admission) (g : TokenGrant)
      (kv : KVCacheManager α) (hr : st.sched.peekWaiting skipped = some r)
      (hlookup : lookup inp st.sched r = .ok (some adm)) (hL : L st.sched.kv (st.sched.objs r) adm)
      (halloc : st.allocates e r adm g = .ok (kv, none)) :
      Move e inp L st (st.failed e r kv)
  | awaitLoad (st) (skipped : Bool) (r : α) (adm : Admission) (g : TokenGrant)
      (kv : KVCacheManager α) (blocks : List (List Nat))
      (hr : st.sched.peekWaiting skipped = some r)
      (hlookup : lookup inp st.sched r = .ok (some adm)) (hL : L st.sched.kv (st.sched.objs r) adm)
      (halloc : st.allocates e r adm g = .ok (kv, some blocks)) (hload : adm.loadKvAsync = true) :
      Move e inp L st ((st.withKV kv).awaitLoad e skipped r adm)
  | start (st) (skipped : Bool) (r : α) (adm : Admission) (g : TokenGrant)
      (kv : KVCacheManager α) (blocks : List (List Nat))
      (hr : st.sched.peekWaiting skipped = some r)
      (hlookup : lookup inp st.sched r = .ok (some adm)) (hL : L st.sched.kv (st.sched.objs r) adm)
      (halloc : st.allocates e r adm g = .ok (kv, some blocks)) (hload : adm.loadKvAsync = false)
      (hstatus : (st.sched.objs r).status = .waiting ∨ (st.sched.objs r).status = .preempted)
      (encoder : ε) (henc : e.enc.allocateAll st.sched.encoder (st.sched.objs r)
        (g.plan.inputs ++ g.plan.externalInputs) = .ok encoder)
      (hgrant : Grants e (st.sched.objs r) adm g.numNewTokens) :
      Move e inp L st ((st.withKV kv).started e skipped r adm g encoder)

section objs
variable (e : Core α ε) (st : WaitingPhase α ε) (kv : KVCacheManager α) (skipped : Bool) (r : α)
  (adm : Admission) (g : TokenGrant) (encoder : ε) (x : α)

theorem awaitLoad_objs : ((st.withKV kv).awaitLoad e skipped r adm).sched.objs x =
    if x = r then { st.sched.objs x with
      status := .waitingForRemoteKvs
      numComputedTokens := adm.numComputedTokens } else st.sched.objs x := by
  cases skipped <;> rfl

theorem started_objs :
    ((st.withKV kv).started e skipped r adm g encoder).sched.objs x =
      if x = r then { st.sched.objs x with
        status := .running
        numComputedTokens := adm.numComputedTokens } else st.sched.objs x := by
  cases skipped <;> rfl

end objs

/-- The lookup that follows the guards, if it comes to that, meets `L`. -/
def StepOK (e : Core α ε) (inp : ScheduleInput α) (defer : Scheduler α ε → α → Bool)
    (L : KVCacheManager α → Request α → Admission → Prop) (st : WaitingPhase α ε) : Prop :=
  ∀ st' skipped r adm, st.next e inp defer = .ok (.consider st' skipped r) →
    lookup inp st'.sched r = .ok (some adm) → L st'.sched.kv (st'.sched.objs r) adm

def PassOK (e : Core α ε) (inp : ScheduleInput α) (defer : Scheduler α ε → α → Bool)
    (L : KVCacheManager α → Request α → Admission → Prop) (st : WaitingPhase α ε) : Prop :=
  Loop.Meets (step e inp defer) (StepOK e inp defer L)
    (st.sched.waiting.length + st.sched.skippedWaiting.length + 1) st

variable {e : Core α ε} {inp : ScheduleInput α} {defer : Scheduler α ε → α → Bool}
  {L : KVCacheManager α → Request α → Admission → Prop}

theorem passOK_true (st : WaitingPhase α ε) : PassOK e inp defer (fun _ _ _ => True) st :=
  Loop.meets_of_forall (fun _ _ _ _ _ _ _ => trivial) _ _

def Leads (e : Core α ε) (inp : ScheduleInput α)
    (L : KVCacheManager α → Request α → Admission → Prop) (st : WaitingPhase α ε) : Next α ε → Prop
  | .stop => True
  | .skip st' skipped r | .consider st' skipped r =>
    ReflTransGen (Move e inp L) st st' ∧ st'.sched.peekWaiting skipped = some r

variable {st st' : WaitingPhase α ε} {req : Request α} {adm : Admission} {more : Bool}

theorem next_leads {x : Next α ε} (h : st.next e inp defer = .ok x) : Leads e inp L st x := by
  unfold next at h
  generalize hk : st.sched.servesSkipped e.policy = skipped at h
  cases hr : st.sched.peekWaiting skipped with
  | none =>
    simp only [hr] at h
    cases h
    trivial
  | some r =>
    simp only [hr] at h
    by_cases hstop : st.tokenBudget ≤ 0 ∨ st.sched.running.length = e.maxNumRunningReqs
    · rw [if_pos hstop] at h
      cases h
      trivial
    rw [if_neg hstop] at h
    by_cases hdefer : defer st.sched r = true
    · rw [if_pos hdefer] at h
      cases h
      exact ⟨.refl, hr⟩
    rw [if_neg hdefer, seq_ok_iff] at h
    obtain ⟨⟨s, ready⟩, hs, h⟩ := h
    have hpromoted : ReflTransGen (Move e inp L) st { st with sched := s } ∧
        s.peekWaiting skipped = some r := by
      by_cases hb : (st.sched.objs r).status.isBlockedWaiting = true
      · rw [if_pos hb] at hs
        obtain ⟨hsame, -⟩ := Scheduler.tryPromote_ok hs
        exact ⟨.single (.promote st skipped r s ready hr hs), (hsame.peekWaiting skipped).trans hr⟩
      · rw [if_neg hb] at hs
        cases hs
        exact ⟨.refl, hr⟩
    split at h
    · cases h
      exact hpromoted
    · cases h
      exact hpromoted

section
omit [LinearOrder α]

variable {plan : EncoderPlan}

theorem planEncoder_ok {n : Int}
    (h : st.planEncoder e req adm n = .ok (st', plan)) :
    (req.hasEncoderInputs = true ∧
      ∃ encoder, e.enc.trySchedule st.sched.encoder req adm.numComputedTokens n
        st.encoderComputeBudget (if e.useEagle then 1 else 0) = .ok (encoder, plan) ∧
      st' = { st with sched := { st.sched with encoder := encoder } }) ∨
    st' = st ∧ plan = ⟨[], n, st.encoderComputeBudget, []⟩ := by
  unfold planEncoder at h
  by_cases hin : req.hasEncoderInputs = true
  · rw [if_pos hin, seq_ok_iff] at h
    obtain ⟨⟨encoder, plan'⟩, htry, h⟩ := h
    cases h
    exact .inl ⟨hin, encoder, htry, rfl⟩
  · rw [if_neg hin] at h
    cases h
    exact .inr ⟨rfl, rfl⟩

theorem planEncoder_sched {n : Int}
    (h : st.planEncoder e req adm n = .ok (st', plan)) :
    ∃ encoder, st' = { st with sched := { st.sched with encoder := encoder } } := by
  rcases planEncoder_ok h with ⟨-, encoder, -, hst⟩ | ⟨rfl, -⟩
  · exact ⟨encoder, hst⟩
  · exact ⟨st'.sched.encoder, rfl⟩

theorem grant_ok {g : Option TokenGrant} (h : st.grant e req adm = .ok (st', g)) :
    st' = st ∨ ∃ n plan, st.planEncoder e req adm n = .ok (st', plan) := by
  unfold grant at h
  by_cases hload : adm.loadKvAsync = true
  · rw [if_pos hload, seq_ok_iff] at h
    obtain ⟨-, -, h⟩ := h
    cases h
    exact .inl rfl
  rw [if_neg hload] at h
  dsimp only at h
  split at h
  · cases h
    exact .inl rfl
  simp only [seq_ok_iff] at h
  obtain ⟨-, -, ⟨mid, plan⟩, hplan, h⟩ := h
  split at h
  · cases h
    exact .inr ⟨_, plan, hplan⟩
  · cases h
    exact .inr ⟨_, plan, hplan⟩

theorem grant_grants {g g' : TokenGrant} (hload : adm.loadKvAsync = false)
    (h : st.grant e req adm = .ok (st', some g)) (hsplit : splitGrant e req adm g = .ok (some g')) :
    Grants e req adm g'.numNewTokens := by
  unfold grant at h
  rw [if_neg (by simp [hload])] at h
  dsimp only at h
  split at h
  · cases h
  simp only [seq_ok_iff, pyAssert_eq_ok] at h
  obtain ⟨-, hpos, ⟨mid, plan⟩, hplan, h⟩ := h
  by_cases hzero : req.hasEncoderInputs = true ∧ plan.numNewTokens = 0
  · rw [if_pos hzero] at h
    cases h
  rw [if_neg hzero] at h
  obtain ⟨-, rfl⟩ : mid = st' ∧ ⟨plan.numNewTokens, plan⟩ = g := by
    simpa using Except.ok.inj h
  simp only [splitGrant, seq_ok_iff] at hsplit
  obtain ⟨n, hn, hsplit⟩ := hsplit
  by_cases hnone : e.needMambaBlockAlignedSplit = true ∧ n = 0
  · rw [if_pos hnone] at hsplit
    cases hsplit
  rw [if_neg hnone] at hsplit
  obtain rfl := Option.some.inj (Except.ok.inj hsplit)
  refine ⟨st.tokenBudget, plan.numNewTokens, hn, fun hm h0 => hnone ⟨hm, h0⟩, hpos, ?_⟩
  rcases planEncoder_ok hplan with ⟨hin, encoder, htry, -⟩ | ⟨-, rfl⟩
  · exact .inr ⟨fun h0 => hzero ⟨hin, h0⟩, _, encoder, plan, _, _, htry, rfl⟩
  · exact .inl rfl

end

theorem allocateAndStart_moves {skipped : Bool} {r : α} {g : TokenGrant}
    (hr : st.sched.peekWaiting skipped = some r) (hlookup : lookup inp st.sched r = .ok (some adm))
    (hL : L st.sched.kv (st.sched.objs r) adm)
    (hgrant : adm.loadKvAsync = false → Grants e (st.sched.objs r) adm g.numNewTokens)
    (h : st.allocateAndStart e skipped r adm g = .ok (st', more)) :
    ReflTransGen (Move e inp L) st st' := by
  unfold allocateAndStart at h
  rw [seq_ok_iff] at h
  obtain ⟨⟨kv, newBlocks⟩, halloc, h⟩ := h
  cases newBlocks with
  | none =>
    cases h
    exact .single (.fail st skipped r adm g kv hr hlookup hL halloc)
  | some blocks =>
    simp only at h
    by_cases hload : adm.loadKvAsync = true
    · rw [if_pos hload] at h
      cases h
      exact .single (.awaitLoad st skipped r adm g kv blocks hr hlookup hL halloc hload)
    rw [if_neg hload, seq_ok_iff] at h
    obtain ⟨last, hstart, h⟩ := h
    cases h
    unfold start at hstart
    by_cases hstatus : (st.sched.objs r).status = .waiting ∨ (st.sched.objs r).status = .preempted
    · rw [if_pos hstatus, seq_ok_iff] at hstart
      obtain ⟨encoder, henc, hstart⟩ := hstart
      cases hstart
      exact .single (.start st skipped r adm g kv blocks hr hlookup hL halloc
        (Bool.eq_false_iff.mpr hload) hstatus encoder henc (hgrant (Bool.eq_false_iff.mpr hload)))
    · rw [if_neg hstatus] at hstart
      cases hstart

theorem tryAdmit_moves {skipped : Bool} {r : α} (hr : st.sched.peekWaiting skipped = some r)
    (hL : ∀ adm, lookup inp st.sched r = .ok (some adm) → L st.sched.kv (st.sched.objs r) adm)
    (h : st.tryAdmit e inp skipped r = .ok (st', more)) :
    ReflTransGen (Move e inp L) st st' := by
  unfold tryAdmit at h
  rw [seq_ok_iff] at h
  obtain ⟨found, hlookup, h⟩ := h
  cases found with
  | none =>
    cases h
    exact .single (.skip st skipped r hr)
  | some adm =>
    simp only [seq_ok_iff] at h
    obtain ⟨⟨mid, g⟩, hgrant, h⟩ := h
    obtain ⟨henc, encoder, rfl⟩ : ReflTransGen (Move e inp L) st mid ∧
        ∃ encoder, mid = { st with sched := { st.sched with encoder := encoder } } := by
      rcases grant_ok hgrant with rfl | ⟨n, plan, hplan⟩
      · exact ⟨.refl, mid.sched.encoder, rfl⟩
      · exact ⟨.single (.encoder st mid _ adm n plan hplan), planEncoder_sched hplan⟩
    cases g with
    | none =>
      cases h
      exact henc
    | some g =>
      simp only [seq_ok_iff] at h
      obtain ⟨g', hsplit, h⟩ := h
      cases g' with
      | none =>
        cases h
        exact henc
      | some g' =>
        exact henc.trans (allocateAndStart_moves hr hlookup (hL adm hlookup)
          (fun hload => grant_grants hload hgrant hsplit) h)

theorem step_moves (hok : StepOK e inp defer L st) (h : st.step e inp defer = .ok (st', more)) :
    ReflTransGen (Move e inp L) st st' := by
  unfold step at h
  rw [seq_ok_iff] at h
  obtain ⟨x, hx, h⟩ := h
  have hleads : Leads e inp L st x := next_leads hx
  cases x with
  | stop =>
    cases h
    exact .refl
  | skip mid skipped r =>
    cases h
    exact hleads.1.tail (.skip mid skipped r hleads.2)
  | consider mid skipped r =>
    exact hleads.1.trans (tryAdmit_moves hleads.2 (fun adm => hok mid skipped r adm hx) h)

theorem loop_moves (hok : PassOK e inp defer L st) (h : st.loop e inp defer = .ok st') :
    ReflTransGen (Move e inp L) st st' :=
  Loop.run_induct (I := fun x => ReflTransGen (Move e inp L) st x)
    (fun _ _ _ hx hQ hstep => hx.trans (step_moves hQ hstep)) .refl hok h

end WaitingPhase
end TailBlend
