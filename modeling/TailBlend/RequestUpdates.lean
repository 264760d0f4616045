import TailBlend.RequestStops

/-! Conservation of requests under `update_from_output`. -/
namespace TailBlend
open Tally List
variable {α ε κ : Type} [LinearOrder α]

theorem filter_not_mem_append (l gone more : List α) :
    l.filter (fun x => x ∉ gone ++ more) =
      (l.filter (fun x => x ∉ gone)).filter (fun x => x ∉ more) := by
  rw [filter_filter]
  apply filter_congr
  intro x _
  by_cases hg : x ∈ gone <;> by_cases hm : x ∈ more <;> simp [hg]

theorem filter_not_mem_singleton {l : List α} {r : α} (hr : r ∉ l) :
    l.filter (fun x => x ∉ [r]) = l := by
  rw [filter_eq_self]
  intro x hx
  have hne : x ≠ r := fun heq => hr (heq ▸ hx)
  simp [hne]

namespace Scheduler

/-- The requests are conserved once the stopped ones are taken out of `running` and `waiting`. -/
def Balanced (s : Scheduler α ε) (stoppedRunning stoppedPreempted : List α) : Prop :=
  Tally s.Live s.Runs (s.running.filter (fun x => x ∉ stoppedRunning))
    (s.waiting.filter (fun x => x ∉ stoppedPreempted) ++ s.skippedWaiting)

variable {s s' s'' : Scheduler α ε} {x r : α} {c : SchedulerConfig} {mo : ModelOutput α}
  {e : Env α ε κ} {out : SchedulerOutput α} {st st' : UpdateLoop α ε κ} {failed extra rs : List α}
  {scheduled : List (α × Int)} {S P : List α} {invalid : List Nat}

theorem Balanced.same_status (h : s.Balanced S P) (hq : SameQueues s s')
    (hs : ∀ x, (s'.objs x).status = (s.objs x).status) : s'.Balanced S P := by
  refine congr h (fun x => ?_) (fun x => ?_) (by rw [hq.running])
    (by rw [hq.waiting, hq.skippedWaiting])
  · unfold Live Request.isFinished
    rw [hq.requests, hs]
  · unfold Runs
    rw [hq.requests, hs]

section stopped
variable {s s₁ s' : Scheduler α ε} {r : α} (happ : Applied s s₁ r true) (hstop : Stopped s₁ s' r)
include happ hstop

omit [LinearOrder α] in
theorem Stopped.other_frame {x : α} (hx : x ≠ r) :
    (s'.Live x ↔ s.Live x) ∧ (s'.Runs x ↔ s.Runs x) := by
  obtain ⟨hobjs, hrequests⟩ := hstop.other x hx
  unfold Live Runs
  rw [hobjs, happ.other x hx, hrequests, happ.queues.requests]
  exact ⟨Iff.rfl, Iff.rfl⟩

theorem Stopped.frame_finish (hfin : (s'.objs r).isFinished = true) (x : α) :
    (s'.Live x ↔ s.Live x ∧ x ∉ [r]) ∧ (s'.Runs x ↔ s.Runs x ∧ x ∉ [r]) := by
  by_cases hx : x = r
  · subst hx
    have hdead : ¬s'.Live x := fun hl => Bool.false_ne_true (hl.2.symm.trans hfin)
    have hidle : ¬s'.Runs x := fun hr => hdead hr.live
    simp [hdead, hidle]
  · obtain ⟨hlive, hruns⟩ := hstop.other_frame happ hx
    simp [hlive, hruns, hx]

theorem Stopped.frame_continue (hlive : s.Live r) (hrequests : s'.requests = s₁.requests)
    (hstatus : (s'.objs r).status = .waiting ∨ (s'.objs r).status = .waitingForStreamingReq)
    (x : α) :
    (s'.Live x ↔ s.Live x) ∧ (s'.Runs x ↔ s.Runs x ∧ x ≠ r) := by
  obtain ⟨hfin, hidle⟩ : (s'.objs r).isFinished = false ∧ (s'.objs r).status ≠ .running := by
    unfold Request.isFinished
    rcases hstatus with hs | hs <;> simp [hs, RequestStatus.isFinished]
  by_cases hx : x = r
  · subst hx
    have hmem : x ∈ s'.requests := by
      rw [hrequests, happ.queues.requests]
      exact hlive.1
    exact ⟨iff_of_true ⟨hmem, hfin⟩ hlive, iff_of_false (fun h => hidle h.2) (fun h => h.2 rfl)⟩
  · obtain ⟨hl, hr⟩ := hstop.other_frame happ hx
    exact ⟨hl, hr.trans (by simp [hx])⟩

theorem Balanced.stopRunning (h : s.Balanced S P) (hruns : s.Runs r)
    (hP : r ∉ P) : s'.Balanced (S ++ [r]) P := by
  have hmem : r ∈ s.running.filter (fun x => x ∉ S) := (acts h r).mpr hruns
  have hrest := not_mem_rest h hmem
  have hrunning : s'.running = s.running := hstop.running.trans happ.queues.running
  unfold Balanced
  rw [hrunning, filter_not_mem_append]
  have herase : (s.running.filter (fun x => x ∉ S)).filter (fun x => x ∉ [r]) =
      (s.running.filter (fun x => x ∉ S)).erase r := by
    rw [(nodup_active h).erase_eq_filter]
    apply filter_congr
    intro x _
    by_cases hx : x = r <;> simp [hx]
  cases hstop.outcome with
  | finish hchunk hfin hwaiting hskipped =>
    have hframe := hstop.frame_finish happ hfin
    refine congr (retire h [r]) (fun x => (hframe x).1) (fun x => (hframe x).2)
      (.refl _) ?_
    rw [hwaiting, hskipped, happ.queues.waiting, happ.queues.skippedWaiting,
      filter_not_mem_singleton hrest]
  | goOn hchunk hstatus hrequests hwaiting hskipped =>
    have hframe := hstop.frame_continue happ hruns.live hrequests (by simp [hstatus])
    rw [herase]
    refine congr (suspend h hmem) (fun x => (hframe x).1) (fun x => (hframe x).2)
      (.refl _) ?_
    have hperm := hwaiting.filter (fun x => x ∉ P)
    rw [filter_cons_of_pos (by simpa using hP), happ.queues.waiting] at hperm
    rw [hskipped, happ.queues.skippedWaiting]
    exact hperm.append_right _
  | await hchunk hstatus hrequests hwaiting hskipped =>
    have hframe := hstop.frame_continue happ hruns.live hrequests (by simp [hstatus])
    rw [herase]
    refine congr (suspend h hmem) (fun x => (hframe x).1) (fun x => (hframe x).2)
      (.refl _) ?_
    rw [happ.queues.skippedWaiting] at hskipped
    rw [hwaiting, happ.queues.waiting]
    exact (hskipped.append_left _).trans perm_middle

/-- A request that stops while it does not run has to sit in the queue from which it is taken
out, or, when its session goes on, in the other one. -/
theorem Balanced.stopWaiting (h : s.Balanced S P) (hlive : s.Live r)
    (hidle : ¬s.Runs r) (hP : r ∉ P) (hgoOn : HasChunk (s₁.objs r) → r ∈ s.skippedWaiting)
    (hend : ¬HasChunk (s₁.objs r) → r ∈ s.waiting) : s'.Balanced S (P ++ [r]) := by
  have hactive : r ∉ s.running.filter (fun x => x ∉ S) := fun hm => hidle ((acts h r).mp hm)
  have hone := once h r hlive
  rw [count_append] at hone
  have hmemW (hw : r ∈ s.waiting) : r ∈ s.waiting.filter (fun x => x ∉ P) := by
    rw [mem_filter]
    exact ⟨hw, by simpa using hP⟩
  have hrunning : s'.running = s.running := hstop.running.trans happ.queues.running
  unfold Balanced
  rw [hrunning, filter_not_mem_append]
  cases hstop.outcome with
  | finish hchunk hfin hwaiting hskipped =>
    have hframe := hstop.frame_finish happ hfin
    have hpos := count_pos_iff.mpr (hmemW (hend hchunk))
    have hskip : r ∉ s.skippedWaiting := count_eq_zero.mp (by omega)
    refine congr (retire h [r]) (fun x => (hframe x).1) (fun x => (hframe x).2)
      (by rw [filter_not_mem_singleton hactive]) ?_
    rw [hwaiting, hskipped, happ.queues.waiting, happ.queues.skippedWaiting, filter_append,
      filter_not_mem_singleton hskip]
  | goOn hchunk hstatus hrequests hwaiting hskipped =>
    have hframe := hstop.frame_continue happ hlive hrequests (by simp [hstatus])
    have hpos := count_pos_iff.mpr (hgoOn hchunk)
    have hwait : r ∉ s.waiting.filter (fun x => x ∉ P) := count_eq_zero.mp (by omega)
    refine congr h (fun x => (hframe x).1) (fun x => (hframe x).2.trans ?_) (.refl _) ?_
    · exact and_iff_left_of_imp (fun hx heq => hidle (heq ▸ hx))
    -- the new occurrence in `waiting` is taken out again
    have hperm := (hwaiting.filter (fun x => x ∉ P)).filter (fun x => x ∉ [r])
    rw [filter_cons_of_pos (by simpa using hP), filter_cons_of_neg (by simp),
      happ.queues.waiting, filter_not_mem_singleton hwait] at hperm
    rw [hskipped, happ.queues.skippedWaiting]
    exact hperm.append_right _
  | await hchunk hstatus hrequests hwaiting hskipped =>
    have hframe := hstop.frame_continue happ hlive hrequests (by simp [hstatus])
    have hW := hmemW (hend hchunk)
    refine congr h (fun x => (hframe x).1) (fun x => (hframe x).2.trans ?_) (.refl _) ?_
    · exact and_iff_left_of_imp (fun hx heq => hidle (heq ▸ hx))
    rw [hwaiting, happ.queues.waiting]
    rw [happ.queues.skippedWaiting] at hskipped
    refine (hskipped.append_left _).trans (perm_iff_count.mpr (fun x => ?_))
    rw [count_append, count_append]
    by_cases hx : x = r
    · subst hx
      have hpos := count_pos_iff.mpr hW
      rw [count_cons_self, count_eq_zero.mpr (by simp)]
      omega
    · rw [count_cons_of_ne (Ne.symm hx), count_filter (by simpa using hx)]

end stopped

/-! The loop over the requests of the step. -/

structure SameFor (s s' : Scheduler α ε) (x : α) : Prop where
  objs : s'.objs x = s.objs x
  requests : x ∈ s'.requests ↔ x ∈ s.requests
  waiting : x ∈ s'.waiting ↔ x ∈ s.waiting
  skippedWaiting : x ∈ s'.skippedWaiting ↔ x ∈ s.skippedWaiting

section
omit [LinearOrder α]

theorem SameFor.trans (h : SameFor s s' x) (h' : SameFor s' s'' x) : SameFor s s'' x :=
  ⟨h'.objs.trans h.objs, h'.requests.trans h.requests, h'.waiting.trans h.waiting,
    h'.skippedWaiting.trans h.skippedWaiting⟩

theorem SameQueues.sameFor (h : SameQueues s s') (hx : s'.objs x = s.objs x) : SameFor s s' x :=
  ⟨hx, by rw [h.requests], by rw [h.waiting], by rw [h.skippedWaiting]⟩

theorem Stopped.sameFor (h : Stopped s s' r) (hx : x ≠ r) : SameFor s s' x := by
  obtain ⟨hobjs, hrequests⟩ := h.other x hx
  have hcons {l l' : List α} (hl : l'.Perm (r :: l)) : x ∈ l' ↔ x ∈ l := by
    rw [hl.mem_iff, mem_cons, or_iff_right hx]
  cases h.outcome with
  | finish _ _ hwaiting hskipped => exact ⟨hobjs, hrequests, by rw [hwaiting], by rw [hskipped]⟩
  | goOn _ _ _ hwaiting hskipped => exact ⟨hobjs, hrequests, hcons hwaiting, by rw [hskipped]⟩
  | await _ _ _ hwaiting hskipped => exact ⟨hobjs, hrequests, by rw [hwaiting], hcons hskipped⟩

/-- If the output stops the request while it does not run, the request sits in `waiting`, or in
`skipped_waiting` when its session goes on with a chunk that is queued already. -/
def StopsInQueue (c : SchedulerConfig) (mo : ModelOutput α) (s : Scheduler α ε) (r : α) : Prop :=
  s.Live r → (s.objs r).status ≠ .running → StopsOn c mo r (s.objs r) →
    (GoesOn c mo r (s.objs r) → r ∈ s.skippedWaiting) ∧
      (¬GoesOn c mo r (s.objs r) → r ∈ s.waiting)

theorem StopsInQueue.of_sameFor (h : StopsInQueue c mo s r) (hs : SameFor s s' r) :
    StopsInQueue c mo s' r := by
  unfold StopsInQueue Live at h ⊢
  rw [hs.objs, hs.requests, hs.waiting, hs.skippedWaiting]
  exact h

theorem StopsInQueue.of_counts (h : StopsInQueue c mo s r) (hq : SameQueues s s') {a b : Int}
    (hr : s'.objs r = (s.objs r).withCounts a b) : StopsInQueue c mo s' r := by
  unfold StopsInQueue Live StopsOn GoesOn at h ⊢
  rw [hr, hq.requests, hq.waiting, hq.skippedWaiting, outputOf_withCounts]
  exact h

end

theorem settle_ok (e : Core α ε) (out : SchedulerOutput α) (mo : ModelOutput α)
    (s : Scheduler α ε) (r : α) :
    SameQueues s (s.settle e out mo r) ∧ (∀ x, x ≠ r → (s.settle e out mo r).objs x = s.objs x) ∧
      ∃ a b, (s.settle e out mo r).objs r = (s.objs r).withCounts a b := by
  unfold settle
  dsimp only
  generalize hs1 : (if (OrderedDict.get? out.scheduledSpecDecodeTokens r).getD [] ≠ [] ∧
      mo.sampledTokenIds r ≠ [] then s.modify r (rejectDrafts
        ((OrderedDict.get? out.scheduledSpecDecodeTokens r).getD []).length
        (mo.sampledTokenIds r).length) else s) = s₁
  have hok : SameQueues s s₁ ∧ (∀ x, x ≠ r → s₁.objs x = s.objs x) ∧
      ∃ a b, s₁.objs r = (s.objs r).withCounts a b := by
    subst hs1
    split
    · refine ⟨sameQueues_modify s r _, fun x hx => modify_objs_of_ne s _ hx, ?_⟩
      rw [modify_objs_self]
      exact ⟨_, _, rfl⟩
    · exact ⟨.refl s, fun _ _ => rfl, _, _, rfl⟩
  split
  · exact ⟨⟨hok.1.running, hok.1.waiting, hok.1.skippedWaiting, hok.1.requests⟩, hok.2⟩
  · exact hok

theorem updateOne_balanced (h : st.sched.Balanced st.stoppedRunningReqs st.stoppedPreemptedReqs)
    (hlive : st.sched.Live r) (hP : r ∉ st.stoppedPreemptedReqs)
    (hcond : StopsInQueue e.toSchedulerConfig mo st.sched r)
    (hup : updateOne e out mo st r = .ok st') :
    st'.sched.Balanced st'.stoppedRunningReqs st'.stoppedPreemptedReqs ∧
      st'.sched.running = st.sched.running ∧
      ∀ x, x ≠ r → SameFor st.sched st'.sched x ∧
        (x ∈ st'.stoppedPreemptedReqs → x ∈ st.stoppedPreemptedReqs) := by
  simp only [updateOne, seq_ok_iff] at hup
  obtain ⟨⟨s₁, kept, stopped⟩, hout, ⟨s2, k⟩, hstop, hst⟩ := hup
  cases hst
  obtain ⟨hq0, hother0, a, b, hcounts⟩ := settle_ok e.toCore out mo st.sched r
  generalize st.sched.settle e.toCore out mo r = s0 at hq0 hother0 hcounts hout ⊢
  obtain ⟨happ, hchunk⟩ := applyTokens_ok hout
  have hstatus₀ (x : α) : (s0.objs x).status = (st.sched.objs x).status := by
    by_cases hx : x = r
    · rw [hx, hcounts]
      rfl
    · rw [hother0 x hx]
  have hlive0 : s0.Live r := by
    refine ⟨by rw [hq0.requests]; exact hlive.1, ?_⟩
    rw [Request.isFinished, hstatus₀]
    exact hlive.2
  have h0 := h.same_status hq0 hstatus₀
  have hcond0 := hcond.of_counts hq0 hcounts
  -- the outputs and the statistics do not concern the queues
  have hemit (P : Prop) [Decidable P] (s : Scheduler α ε) :
      SameQueues s (if P then s.modify r (fun req => { req with prefillStats := false }) else s) ∧
      (∀ x, ((if P then s.modify r (fun req => { req with prefillStats := false })
        else s).objs x).status = (s.objs x).status) ∧
      ∀ x, x ≠ r → (if P then s.modify r (fun req => { req with prefillStats := false })
        else s).objs x = s.objs x := by
    split
    · exact ⟨sameQueues_modify s r _, modify_status s r (fun _ => rfl),
        fun x hx => modify_objs_of_ne s _ hx⟩
    · exact ⟨.refl s, fun _ => rfl, fun _ _ => rfl⟩
  obtain ⟨hqe, hstatuse, hothere⟩ := hemit (kept ≠ [] ∨ mo.pooled r = true ∨ stopped = true) s2
  have hfirst (x : α) (hx : x ≠ r) : SameFor st.sched s₁ x :=
    (hq0.sameFor (hother0 x hx)).trans (happ.queues.sameFor (happ.other x hx))
  cases stopped with
  | false =>
    cases hstop
    have h1 : s₁.Balanced st.stoppedRunningReqs st.stoppedPreemptedReqs := by
      refine h0.same_status happ.queues (fun x => ?_)
      by_cases hx : x = r
      · rw [hx]
        exact happ.same rfl
      · rw [happ.other x hx]
    refine ⟨?_, ?_, fun x hx => ⟨(hfirst x hx).trans (hqe.sameFor (hothere x hx)), ?_⟩⟩
    · simpa using h1.same_status hqe hstatuse
    · exact hqe.running.trans (happ.queues.running.trans hq0.running)
    · simp
  | true =>
    have hstopped := stopRequest_stopped hstop
    obtain ⟨hstops, hgo⟩ := hchunk rfl
    have hlast (x : α) (hx : x ≠ r) := ((hfirst x hx).trans (hstopped.sameFor hx)).trans
      (hqe.sameFor (hothere x hx))
    have hrunning := hqe.running.trans
      (hstopped.running.trans (happ.queues.running.trans hq0.running))
    by_cases hrun : (s0.objs r).status = .running
    · have h2 := h0.stopRunning happ hstopped ⟨hlive0.1, hrun⟩ hP
      refine ⟨?_, hrunning, fun x hx => ⟨hlast x hx, by simp [hrun]⟩⟩
      simpa [hrun] using h2.same_status hqe hstatuse
    obtain ⟨hskip, hwait⟩ := hcond0 hlive0 hrun hstops
    have h2 := h0.stopWaiting happ hstopped hlive0 (fun hr => hrun hr.2) hP
      (fun hc => hskip (hgo.mp hc)) (fun hc => hwait (fun hg => hc (hgo.mpr hg)))
    refine ⟨?_, hrunning, fun x hx => ⟨hlast x hx, by simp [hrun, hx]⟩⟩
    simpa [hrun] using h2.same_status hqe hstatuse

theorem updateLoop_balanced (h : st.sched.Balanced st.stoppedRunningReqs st.stoppedPreemptedReqs)
    (hnodup : (scheduled.map Prod.fst).Nodup)
    (hP : ∀ x ∈ scheduled.map Prod.fst, x ∉ st.stoppedPreemptedReqs)
    (hcond : ∀ x ∈ scheduled.map Prod.fst, x ∉ failed →
      StopsInQueue e.toSchedulerConfig mo st.sched x)
    (hup : updateLoop e out mo failed st scheduled = .ok st') :
    st'.sched.Balanced st'.stoppedRunningReqs st'.stoppedPreemptedReqs ∧
      st'.sched.running = st.sched.running := by
  induction scheduled generalizing st with
  | nil =>
    cases hup
    exact ⟨h, rfl⟩
  | cons y ys ih =>
    obtain ⟨r, n⟩ := y
    simp only [updateLoop, seq_ok_iff] at hup
    obtain ⟨-, -, mid, hmid, hup⟩ := hup
    simp only [map_cons, nodup_cons] at hnodup
    simp only [map_cons, forall_mem_cons] at hP hcond
    by_cases hskip : r ∈ failed ∨ r ∉ st.sched.requests ∨ (st.sched.objs r).isFinished = true
    · rw [if_pos hskip] at hmid
      cases hmid
      exact ih h hnodup.2 hP.2 hcond.2 hup
    rw [if_neg hskip] at hmid
    push Not at hskip
    obtain ⟨hfailed, hmem, hfin⟩ := hskip
    obtain ⟨hbal, hrunning, hother⟩ := updateOne_balanced h ⟨hmem, by simpa using hfin⟩ hP.1
      (hcond.1 hfailed) hmid
    have hne (x : α) (hx : x ∈ ys.map Prod.fst) : x ≠ r := fun heq => hnodup.1 (heq ▸ hx)
    obtain ⟨hbal', hrunning'⟩ := ih hbal hnodup.2
      (fun x hx hin => hP.2 x hx ((hother x (hne x hx)).2 hin))
      (fun x hx hf => (hcond.2 x hx hf).of_sameFor (hother x (hne x hx)).1) hup
    exact ⟨hbal', hrunning'.trans hrunning⟩

/-! Failed loads and finished transfers. -/

structure CountsOnly (s s' : Scheduler α ε) : Prop where
  queues : SameQueues s s'
  counts : ∀ x, ∃ a b, s'.objs x = (s.objs x).withCounts a b

omit [LinearOrder α] in
theorem CountsOnly.refl (s : Scheduler α ε) : CountsOnly s s := ⟨.refl s, fun _ => ⟨_, _, rfl⟩⟩

omit [LinearOrder α] in
theorem CountsOnly.trans (h : CountsOnly s s') (h' : CountsOnly s' s'') : CountsOnly s s'' := by
  refine ⟨h.queues.trans h'.queues, fun x => ?_⟩
  obtain ⟨a, b, hx⟩ := h.counts x
  obtain ⟨a', b', hx'⟩ := h'.counts x
  exact ⟨a', b', by rw [hx', hx]; rfl⟩

theorem CountsOnly.setComputed (s : Scheduler α ε) (r : α) (n : Int) :
    CountsOnly s (s.modify r (fun req => { req with numComputedTokens := n })) := by
  refine ⟨sameQueues_modify s r _, fun x => ?_⟩
  by_cases hx : x = r
  · subst hx
    rw [modify_objs_self]
    exact ⟨_, _, rfl⟩
  · rw [modify_objs_of_ne s _ hx]
    exact ⟨_, _, rfl⟩

theorem CountsOnly.conserved (hc : CountsOnly s s') (h : s.Conserved extra) :
    s'.Conserved extra := by
  refine h.same_status hc.queues (fun x => ?_)
  obtain ⟨a, b, hx⟩ := hc.counts x
  rw [hx]
  rfl

theorem updateInvalid_counts {blockSize : Nat} {marked evict : List Nat}
    {ids : List α}
    (h : updateInvalid blockSize invalid scheduled s marked rs = .ok (s', ids, evict)) :
    CountsOnly s s' ∧ s'.encoder = s.encoder := by
  induction rs generalizing s marked ids evict with
  | nil =>
    obtain ⟨rfl, -⟩ := Prod.mk.inj (Except.ok.inj h)
    exact ⟨.refl s, rfl⟩
  | cons r rs ih =>
    simp only [updateInvalid, seq_ok_iff] at h
    obtain ⟨blocks, -, ⟨s₁, ids1, evict1⟩, hrest, h⟩ := h
    cases h
    obtain ⟨hcounts, hencoder⟩ := ih hrest
    refine ⟨CountsOnly.trans ?_ hcounts, hencoder.trans ?_⟩
    · split
      · exact .setComputed s r _
      · split
        · exact .setComputed s r _
        · exact .refl s
    · split
      · rfl
      · split <;> rfl

theorem handleInvalidBlocks_counts
    (h : s.handleInvalidBlocks c invalid scheduled = .ok (s', failed)) :
    CountsOnly s s' ∧ s'.encoder = s.encoder := by
  simp only [handleInvalidBlocks, seq_ok_iff] at h
  obtain ⟨⟨s₁, asyncIds, evict1⟩, hasync, ⟨s2, syncIds, evict2⟩, hsync, h⟩ := h
  have hcounts := (updateInvalid_counts hasync).1.trans (updateInvalid_counts hsync).1
  have hencoder := (updateInvalid_counts hsync).2.trans (updateInvalid_counts hasync).2
  have hq := hcounts.queues
  split at h
  · cases h
    exact ⟨hcounts, hencoder⟩
  split at h
  · cases h
    exact ⟨⟨⟨hq.running, hq.waiting, hq.skippedWaiting, hq.requests⟩, hcounts.counts⟩, hencoder⟩
  rw [seq_ok_iff] at h
  obtain ⟨kv, -, h⟩ := h
  cases h
  exact ⟨⟨⟨hq.running, hq.waiting, hq.skippedWaiting, hq.requests⟩, hcounts.counts⟩, hencoder⟩

theorem transfers_keep {P : Scheduler α ε → Prop} {s₁ : Scheduler α ε} {recv sent : List α}
    (hmark : ∀ (s : Scheduler α ε) r, P s → P { s with
      finishedRecvingKvReqIds := s.finishedRecvingKvReqIds ++ [r] })
    (hfree : ∀ (s s' : Scheduler α ε) r, s.freeBlocks r = .ok s' → P s → P s') (hP : P s)
    (hrecv : s.finishRecving recv = .ok s₁) (hsend : s₁.finishSending sent = .ok s') : P s' := by
  have h1 : P s₁ := by
    induction recv generalizing s with
    | nil =>
      cases hrecv
      exact hP
    | cons r rs ih =>
      simp only [finishRecving, seq_ok_iff] at hrecv
      obtain ⟨-, -, s2, hs2, hrecv⟩ := hrecv
      refine ih ?_ hrecv
      split at hs2
      · cases hs2
        exact hmark s r hP
      · exact hfree s s2 r hs2 hP
  clear hrecv
  induction sent generalizing s₁ with
  | nil =>
    cases hsend
    exact h1
  | cons r rs ih =>
    simp only [finishSending, seq_ok_iff] at hsend
    obtain ⟨-, -, s2, hs2, hsend⟩ := hsend
    exact ih hsend (hfree s₁ s2 r hs2 h1)

theorem Conserved.finishTransfers {k k' : κ} (h : s.Conserved [])
    (hs : finishTransfers e mo failed s k = .ok (s', k')) : s'.Conserved [] := by
  simp only [Scheduler.finishTransfers, seq_ok_iff] at hs
  obtain ⟨⟨s₁, k1⟩, hfin, s2, hrecv, s3, hsend, hs⟩ := hs
  cases hs
  refine transfers_keep (P := fun s => s.Conserved [])
    (fun s r h => h.same_status ⟨rfl, rfl, rfl, rfl⟩ (fun _ => rfl))
    (fun s s' r hfree h => (freeBlocks_freed hfree).conserved h) ?_ hrecv hsend
  split at hfin
  · exact h.finishRequests hfin
  · cases hfin
    exact h

/-! The call as a whole. -/

def failedLoads (c : SchedulerConfig) (out : SchedulerOutput α) (mo : ModelOutput α)
    (s : Scheduler α ε) : Except PyError (Scheduler α ε × List α) :=
  let invalid := (mo.kvConnectorOutput.map KVConnectorOutput.invalidBlockIds).getD []
  if invalid ≠ [] then s.handleInvalidBlocks c invalid out.numScheduledTokens else .ok (s, [])

/-- No request is stopped by this output while it sits in a queue from which it is not taken. -/
def StopsFound (e : SchedulerConfig) (out : SchedulerOutput α) (mo : ModelOutput α)
    (s : Scheduler α ε) : Prop :=
  ∀ s₁ failed, s.failedLoads e out mo = .ok (s₁, failed) →
    ∀ r ∈ out.numScheduledTokens.map Prod.fst, r ∉ failed → StopsInQueue e mo s r

theorem Conserved.updateFromOutput {k k' : κ} {outputs : List (EngineCoreOutput α)}
    (h : s.Conserved []) (hnodup : (out.numScheduledTokens.map Prod.fst).Nodup)
    (hcond : s.StopsFound e.toSchedulerConfig out mo)
    (hs : s.updateFromOutput e out mo k = .ok (s', k', outputs)) : s'.Conserved [] := by
  simp only [Scheduler.updateFromOutput, seq_ok_iff] at hs
  obtain ⟨⟨s₁, failed⟩, hfailed, st, hst, ⟨s2, k2⟩, hend, hs⟩ := hs
  cases hs
  have hcounts : CountsOnly s s₁ := by
    split at hfailed
    · exact (handleInvalidBlocks_counts hfailed).1
    · cases hfailed
      exact .refl s
  have h1 := hcounts.conserved h
  have hbal : (UpdateLoop.mk s₁ (e.hooks.observeStep k mo.now out.features)
      [] [] []).sched.Balanced [] [] := by
    refine congr h1 (fun _ => Iff.rfl) (fun _ => Iff.rfl) ?_ ?_ <;> simp
  obtain ⟨hdone, hrunning⟩ := updateLoop_balanced hbal hnodup
    (fun _ _ => not_mem_nil) (fun x hx hf => by
      obtain ⟨a, b, hobjs⟩ := hcounts.counts x
      exact (hcond s₁ failed hfailed x hx hf).of_counts hcounts.queues hobjs) hst
  refine Conserved.finishTransfers ?_ hend
  have hnd : st.sched.running.Nodup := by
    rw [hrunning]
    exact nodup_active h1
  refine congr hdone (fun _ => Iff.rfl) (fun _ => Iff.rfl) ?_ ?_
  · rw [← removeAll_eq_filter hnd]
    exact .refl _
  rw [append_nil]
  refine Perm.append_right _ ?_
  unfold removeStopped
  split
  · rename_i hnil
    simp [hnil]
  · exact RequestQueue.removeRequests_perm e.policy _ _ _

end Scheduler
end TailBlend
