import TailBlend.RequestConservation

/-! Conservation of requests under `add_request`, `finish_requests` and `reset_prefix_cache`. -/
namespace TailBlend
open List

/-! What the calls do to a single request. -/

namespace Request
variable {α : Type}

@[simp] theorem updateBlockHashes_status (req : Request α) :
    req.updateBlockHashes.status = req.status := by
  unfold updateBlockHashes
  split <;> rfl

theorem new_status (args : Args α) :
    (new args).status.isFinished = false ∧ (new args).status ≠ .running := by
  unfold new unhashed
  cases args.task with
  | pooling => exact ⟨by simp [RequestStatus.isFinished], by simp⟩
  | sampling params maxTokens structured =>
    cases structured
    · exact ⟨by simp [RequestStatus.isFinished], by simp⟩
    · exact ⟨by simp [RequestStatus.isFinished], by simp⟩

end Request

variable {α ε κ : Type} [LinearOrder α]

namespace Scheduler

structure Freed (s s' : Scheduler α ε) (r : α) : Prop where
  running : s'.running = s.running
  waiting : s'.waiting = s.waiting
  skippedWaiting : s'.skippedWaiting = s.skippedWaiting
  objs : s'.objs = s.objs
  requests : ∀ x, x ≠ r → (x ∈ s'.requests ↔ x ∈ s.requests)
  finished : (s.objs r).isFinished = true

variable {s s' : Scheduler α ε} {r : α} {e : Env α ε κ} {connector : Option (α → Bool)} {now : ℚ}
  {k k' : κ} {status : RequestStatus}

theorem freeBlocks_freed (h : s.freeBlocks r = .ok s') : Freed s s' r := by
  simp only [freeBlocks, seq_ok_iff, pyAssert_eq_ok] at h
  obtain ⟨-, hfin, h⟩ := h
  split at h
  · cases h
    exact ⟨rfl, rfl, rfl, rfl, fun x hx => by simp [hx], hfin⟩
  · cases h

theorem freeRequest_freed {delay : Bool}
    (h : freeRequest e connector now s k r delay = .ok (s', k')) : Freed s s' r := by
  simp only [freeRequest, seq_ok_iff, pyAssert_eq_ok] at h
  obtain ⟨-, hfin, kv, -, h⟩ := h
  split at h
  · cases h
    exact ⟨rfl, rfl, rfl, rfl, fun _ _ => Iff.rfl, hfin⟩
  rw [seq_ok_iff] at h
  obtain ⟨s1, hfree, h⟩ := h
  cases h
  have hf := freeBlocks_freed hfree
  exact ⟨hf.running, hf.waiting, hf.skippedWaiting, hf.objs, hf.requests, hfin⟩

theorem Freed.conserved (hf : Freed s s' r) {extra : List α} (h : s.Conserved extra) :
    s'.Conserved extra := by
  refine Tally.congr h (fun x => ?_) (fun x => ?_) (by rw [hf.running])
    (by rw [hf.waiting, hf.skippedWaiting])
  · unfold Live
    rw [hf.objs]
    by_cases hx : x = r
    · subst hx
      simp [hf.finished]
    · rw [hf.requests x hx]
  unfold Runs
  rw [hf.objs]
  by_cases hx : x = r
  · subst hx
    have hne : (s.objs x).status ≠ .running := by
      intro hs
      have := hf.finished
      simp [Request.isFinished, hs, RequestStatus.isFinished] at this
    simp [hne]
  · rw [hf.requests x hx]

/-! `finish_requests`. -/

theorem finishAll_ok (hstatus : status.isFinished = true) {rs : List α}
    (h : finishAll e connector now status s k rs = .ok (s', k')) :
    s'.running = s.running ∧ s'.waiting = s.waiting ∧ s'.skippedWaiting = s.skippedWaiting ∧
      (∀ x ∈ rs, (s'.objs x).isFinished = true) ∧
      ∀ x, x ∉ rs → s'.objs x = s.objs x ∧ (x ∈ s'.requests ↔ x ∈ s.requests) := by
  induction rs generalizing s k with
  | nil =>
    cases h
    exact ⟨rfl, rfl, rfl, nofun, fun _ _ => ⟨rfl, Iff.rfl⟩⟩
  | cons r rs ih =>
    simp only [finishAll, seq_ok_iff] at h
    obtain ⟨⟨s1, k1⟩, hfree, h⟩ := h
    have hf := freeRequest_freed hfree
    obtain ⟨hrun, hwait, hskip, hfin, hother⟩ := ih h
    -- the bookkeeping of remote loads touches no request
    generalize hs0 : (if (s.objs r).status = .waitingForRemoteKvs then
      { s with
        finishedRecvingKvReqIds := s.finishedRecvingKvReqIds.filter (· ≠ r)
        failedRecvingKvReqIds := s.failedRecvingKvReqIds.filter (· ≠ r) } else s) = s0 at hf
    have hq : SameQueues s s0 ∧ s0.objs = s.objs := by
      subst hs0
      split <;> exact ⟨⟨rfl, rfl, rfl, rfl⟩, rfl⟩
    refine ⟨?_, ?_, ?_, fun x hx => ?_, fun x hx => ?_⟩
    · rw [hrun, hf.running]
      exact hq.1.running
    · rw [hwait, hf.waiting]
      exact hq.1.waiting
    · rw [hskip, hf.skippedWaiting]
      exact hq.1.skippedWaiting
    · by_cases hx' : x ∈ rs
      · exact hfin x hx'
      · obtain rfl : x = r := by simpa [hx'] using hx
        rw [(hother x hx').1, hf.objs]
        simpa [Request.isFinished] using hstatus
    · have hne : x ≠ r := fun heq => hx (by simp [heq])
      have hrs : x ∉ rs := fun hmem => hx (mem_cons_of_mem _ hmem)
      refine ⟨?_, ?_⟩
      · rw [(hother x hrs).1, hf.objs, modify_objs_of_ne _ _ hne, hq.2]
      · rw [(hother x hrs).2, hf.requests x hne]
        exact iff_of_eq (congrArg (x ∈ ·) hq.1.requests)

theorem filter_filter_of_mem {l rs : List α} {P : α → Prop} [DecidablePred P]
    (hP : ∀ x ∈ l, P x) :
    l.filter (fun x => x ∉ rs.filter (fun r => P r)) = l.filter (fun x => x ∉ rs) := by
  apply filter_congr
  intro x hx
  simp [hP x hx]

theorem dequeueAll_perm (h : s.Conserved []) (policy : SchedulingPolicy) (rs : List α) :
    (s.dequeueAll policy rs).running = s.running.filter (fun x => x ∉ rs) ∧
      (s.dequeueAll policy rs).waiting.Perm (s.waiting.filter (fun x => x ∉ rs)) ∧
      (s.dequeueAll policy rs).skippedWaiting.Perm
        (s.skippedWaiting.filter (fun x => x ∉ rs)) := by
  have hactive (x : α) (hx : x ∈ s.running) : (s.objs x).status = .running :=
    ((Tally.acts h x).mp hx).2
  have hidle (x : α) (hx : x ∈ s.waiting ++ s.skippedWaiting) : (s.objs x).status ≠ .running := by
    intro hs
    have hx' : x ∈ s.waiting ++ s.skippedWaiting ++ [] := by simpa using hx
    exact Tally.not_mem_rest h ((Tally.acts h x).mpr ⟨(Tally.live_of_mem h (.inr hx')).1, hs⟩) hx'
  have hrest (q : List α) (hq : ∀ x ∈ q, x ∈ s.waiting ++ s.skippedWaiting) :
      (if rs.filter (fun r => (s.objs r).status ≠ .running) = [] then q
        else RequestQueue.removeRequests policy s.lt q
          (rs.filter (fun r => (s.objs r).status ≠ .running))).Perm
        (q.filter (fun x => x ∉ rs)) := by
    rw [← filter_filter_of_mem (P := fun r => (s.objs r).status ≠ .running)
      (fun x hx => hidle x (hq x hx))]
    split
    · rename_i hnil
      rw [hnil]
      simp
    · exact RequestQueue.removeRequests_perm policy s.lt q _
  refine ⟨?_, hrest s.waiting (fun x hx => mem_append_left _ hx),
    hrest s.skippedWaiting (fun x hx => mem_append_right _ hx)⟩
  change removeAll s.running (rs.filter (fun r => (s.objs r).status = .running)) = _
  rw [removeAll_eq_filter (Tally.nodup_active h), filter_filter_of_mem hactive]

theorem Conserved.finishRequests {ids : Option (List α)} (h : s.Conserved [])
    (hf : finishRequests e connector now s k ids status = .ok (s', k')) : s'.Conserved [] := by
  simp only [Scheduler.finishRequests, seq_ok_iff, pyAssert_eq_ok] at hf
  obtain ⟨-, hstatus, hf⟩ := hf
  obtain ⟨hrun, hwait, hskip, hfin, hother⟩ := finishAll_ok hstatus hf
  obtain ⟨hrun', hwait', hskip'⟩ := dequeueAll_perm h e.policy (s.validRequests ids)
  refine Tally.congr (Tally.retire h (s.validRequests ids)) (fun x => ?_) (fun x => ?_) ?_ ?_
  · by_cases hx : x ∈ s.validRequests ids
    · simp [Live, hfin x hx, hx]
    · obtain ⟨hobjs, hreq⟩ := hother x hx
      simp only [Live, hobjs, hreq, hx, not_false_eq_true, and_true]
      exact Iff.rfl
  · by_cases hx : x ∈ s.validRequests ids
    · have hne : (s'.objs x).status ≠ .running := by
        intro hs
        have := hfin x hx
        simp [Request.isFinished, hs, RequestStatus.isFinished] at this
      simp [Runs, hne, hx]
    · obtain ⟨hobjs, hreq⟩ := hother x hx
      simp only [Runs, hobjs, hreq, hx, not_false_eq_true, and_true]
      exact Iff.rfl
  · rw [hrun, hrun']
  · rw [hwait, hskip, append_nil, append_nil, filter_append]
    exact hwait'.append hskip'

/-! `add_request`. -/

theorem enqueueWaitingRequest_perm (policy : SchedulingPolicy) (s : Scheduler α ε) (r : α) :
    ((s.enqueueWaitingRequest policy r).waiting ++
      (s.enqueueWaitingRequest policy r).skippedWaiting).Perm
      (r :: (s.waiting ++ s.skippedWaiting)) := by
  unfold enqueueWaitingRequest
  split
  · exact ((RequestQueue.addRequest_perm policy s.lt s.skippedWaiting r).append_left _).trans
      perm_middle
  · exact (RequestQueue.addRequest_perm policy s.lt s.waiting r).append_right _

theorem enqueueWaitingRequest_rest (policy : SchedulingPolicy) (s : Scheduler α ε) (r : α) :
    (s.enqueueWaitingRequest policy r).running = s.running ∧
      (s.enqueueWaitingRequest policy r).objs = s.objs ∧
      (s.enqueueWaitingRequest policy r).requests = s.requests := by
  unfold enqueueWaitingRequest
  split <;> exact ⟨rfl, rfl, rfl⟩

theorem Conserved.addNew (h : s.Conserved []) {policy : SchedulingPolicy} {req : Request α}
    (hr : r ∉ s.requests) (hfin : req.isFinished = false) (hrun : req.status ≠ .running)
    (hs' : s' = (s.modify r (fun _ => req)).enqueueWaitingRequest policy r) :
    ({ s' with requests := s'.requests ++ [r] } : Scheduler α ε).Conserved [] := by
  have hdead : ¬s.Live r := fun hlive => hr hlive.1
  obtain ⟨hrunning, hobjs, hrequests⟩ :=
    enqueueWaitingRequest_rest policy (s.modify r (fun _ => req)) r
  have hperm := enqueueWaitingRequest_perm policy (s.modify r (fun _ => req)) r
  rw [← hs'] at hrunning hobjs hrequests hperm
  refine Tally.congr (Tally.add h hdead) (fun x => ?_) (fun x => ?_) (by rw [hrunning]; rfl) ?_
  · change (x ∈ s'.requests ++ [r] ∧ (s'.objs x).isFinished = false) ↔ _
    rw [hobjs, hrequests]
    by_cases hx : x = r
    · subst hx
      simp [hfin]
    · simp [Live, modify, hx]
  · rw [hobjs, hrequests]
    by_cases hx : x = r
    · subst hx
      simp [Runs, hrun, hr]
    · simp [Runs, modify, hx]
  · rw [append_nil, append_nil]
    exact hperm

theorem updateRequestAsSession_conserved {extra : List α} (h : s.Conserved extra)
    (update : StreamingUpdate) (hfin : (s.objs r).isFinished = false)
    (hrun : (s.objs r).status ≠ .running) :
    (s.updateRequestAsSession r update).Conserved extra := by
  have hobjs (x : α) : (s.updateRequestAsSession r update).objs x =
      if x = r then (s.objs x).updateAsSession update else s.objs x := rfl
  refine h.frame ⟨rfl, rfl, rfl, rfl⟩ (fun x => ?_) (fun x => ?_)
  · by_cases hx : x = r
    · subst hx
      rw [hobjs, if_pos rfl, hfin]
      rfl
    · rw [hobjs, if_neg hx]
  · by_cases hx : x = r
    · subst hx
      rw [hobjs, if_pos rfl]
      exact iff_of_false nofun hrun
    · rw [hobjs, if_neg hx]

theorem Conserved.addRequest {req : Request α} (h : s.Conserved []) (hfin : req.isFinished = false)
    (hrun : req.status ≠ .running) (hs : s.addRequest e connector now k req = .ok (s', k')) :
    s'.Conserved [] := by
  unfold Scheduler.addRequest at hs
  by_cases hr : req.requestId ∈ s.requests
  · rw [if_pos hr] at hs
    by_cases hwait : (s.objs req.requestId).status ≠ .waitingForStreamingReq
    · rw [if_pos hwait] at hs
      split at hs
      · cases hs
      · cases hs
        exact h.modified _ (fun _ => rfl)
    rw [if_neg hwait] at hs
    rw [not_not] at hwait
    split at hs
    · cases hs
      refine updateRequestAsSession_conserved h _ ?_ ?_
      · simp [Request.isFinished, hwait, RequestStatus.isFinished]
      · simp [hwait]
    · exact h.finishRequests hs
  · rw [if_neg hr] at hs
    cases hs
    split
    · refine h.addNew hr ?_ ?_ rfl
      · exact hfin
      · exact hrun
    · exact h.addNew hr hfin hrun rfl

/-! `reset_prefix_cache` and draft tokens. -/

theorem preemptAll_keeps {e : Core α ε} {fuel : Nat} {P : Scheduler α ε → Prop}
    (hstep : ∀ s r, s.running.getLast? = some r → P s →
      P (({ s with running := s.running.dropLast }.preempted e r).modify r (fun req =>
        { req with numOutputPlaceholders := 0, discardLatestAsyncTokens := true })))
    (hP : P s) (hs : s.preemptAll e fuel = .ok s') : P s' := by
  induction fuel generalizing s with
  | zero =>
    cases hs
    exact hP
  | succ fuel ih =>
    unfold preemptAll at hs
    cases hlast : s.running.getLast? with
    | none =>
      simp only [hlast] at hs
      cases hs
      exact hP
    | some r =>
      simp only [hlast, seq_ok_iff] at hs
      obtain ⟨s1, hpre, hs⟩ := hs
      obtain ⟨-, rfl⟩ := preemptRequest_ok hpre
      exact ih (hstep s r hlast hP) hs

theorem Conserved.preemptAll {e : Core α ε} {fuel : Nat} (h : s.Conserved [])
    (hs : s.preemptAll e fuel = .ok s') : s'.Conserved [] := by
  refine preemptAll_keeps (P := fun s => s.Conserved []) (fun s r hlast h => ?_) h hs
  have hsplit : s.running.dropLast ++ [r] = s.running := dropLast_append_getLast? r hlast
  have hperm : s.running.dropLast.Perm (s.running.erase r) := by
    rw [← hsplit, dropLast_concat]
    have hcons := ((perm_append_singleton r s.running.dropLast).erase r).symm
    rwa [erase_cons_head] at hcons
  have hmem : r ∈ s.running := by
    rw [← hsplit]
    simp
  exact (h.preempted e hmem hperm).modified r (fun _ => rfl)

theorem Conserved.resetPrefixCache {e : Core α ε} {reset ok : Bool} (h : s.Conserved [])
    (hs : s.resetPrefixCache e reset = .ok (s', ok)) : s'.Conserved [] := by
  simp only [Scheduler.resetPrefixCache, seq_ok_iff] at hs
  obtain ⟨s1, hs1, hs⟩ := hs
  have h1 : s1.Conserved [] := by
    split at hs1
    · simp only [preemptRunning, seq_ok_iff] at hs1
      obtain ⟨s2, hs2, hs1⟩ := hs1
      cases hs1
      exact (h.preemptAll hs2).same_status ⟨rfl, rfl, rfl, rfl⟩ (fun _ => rfl)
    · cases hs1
      exact h
  split at hs
  · cases hs
  · cases hs
    exact h1.same_status ⟨rfl, rfl, rfl, rfl⟩ (fun _ => rfl)

theorem Conserved.updateDraftTokenIds (h : s.Conserved []) (drafts : List (α × List Int)) :
    (s.updateDraftTokenIds drafts).Conserved [] := by
  induction drafts generalizing s with
  | nil => exact h
  | cons d drafts ih =>
    refine ih ?_
    dsimp only
    split
    · exact h
    · exact h.modified _ (fun _ => rfl)

end Scheduler
end TailBlend
