import TailBlend.Lib.Tally
import TailBlend.PassMoves
import TailBlend.SchedulerRuns

/-! Conservation of requests: each unfinished request sits in exactly one queue. -/
namespace TailBlend
open Tally RequestQueue Scheduler List
variable {α ε κ : Type} [LinearOrder α]

namespace Scheduler

def Live (s : Scheduler α ε) (r : α) : Prop := r ∈ s.requests ∧ (s.objs r).isFinished = false

def Runs (s : Scheduler α ε) (r : α) : Prop := r ∈ s.requests ∧ (s.objs r).status = .running

/-- Every live request occurs once in the queues or in `extra`, and in `running` exactly when its
status says so; nothing else occurs there. -/
def Conserved (s : Scheduler α ε) (extra : List α) : Prop :=
  Tally s.Live s.Runs s.running (s.waiting ++ s.skippedWaiting ++ extra)

variable {s s' : Scheduler α ε} {r : α} {extra : List α} {f : Request α → Request α}
  {skipped : Bool}

omit [LinearOrder α] in
theorem Runs.live (h : s.Runs r) : s.Live r := ⟨h.1, by unfold Request.isFinished; rw [h.2]; rfl⟩

theorem Conserved.frame (h : s.Conserved extra) (hq : SameQueues s s')
    (hfin : ∀ x, (s'.objs x).isFinished = (s.objs x).isFinished)
    (hrun : ∀ x, (s'.objs x).status = .running ↔ (s.objs x).status = .running) :
    s'.Conserved extra := by
  refine congr h (fun x => ?_) (fun x => ?_) (by rw [hq.running]) ?_
  · unfold Live
    rw [hq.requests, hfin]
  · unfold Runs
    rw [hq.requests, hrun]
  · rw [hq.waiting, hq.skippedWaiting]

theorem Conserved.same_status (h : s.Conserved extra) (hq : SameQueues s s')
    (hs : ∀ x, (s'.objs x).status = (s.objs x).status) : s'.Conserved extra :=
  h.frame hq (fun x => congrArg RequestStatus.isFinished (hs x)) (fun x => by rw [hs])

theorem modify_status (s : Scheduler α ε) (r : α) (hf : ∀ req, (f req).status = req.status)
    (x : α) : ((s.modify r f).objs x).status = (s.objs x).status := by
  by_cases hx : x = r
  · subst hx
    simp [hf]
  · simp [hx]

theorem Conserved.modified (h : s.Conserved extra) (r : α)
    (hf : ∀ req, (f req).status = req.status) : (s.modify r f).Conserved extra :=
  h.same_status (sameQueues_modify s r f) (modify_status s r hf)

theorem Conserved.preempted (h : s.Conserved extra) (e : Core α ε) (hr : r ∈ s.running)
    {running : List α} (hperm : running.Perm (s.running.erase r)) :
    ({ s with running := running }.preempted e r).Conserved extra := by
  have hlive : s.Live r := live_of_mem h (.inl hr)
  refine congr (suspend h hr) (fun x => ?_) (fun x => ?_) hperm ?_
  · by_cases hx : x = r
    · subst hx
      exact ⟨fun _ => hlive, fun _ => ⟨hlive.1, by simp [preempted]; rfl⟩⟩
    · simp [Live, Scheduler.preempted, modify, hx]
  · by_cases hx : x = r
    · subst hx
      simp [Runs, preempted, Request.preempt]
    · simp [Runs, Scheduler.preempted, modify, hx]
  · exact ((prependRequest_perm e.policy _ s.waiting r).append_right _).append_right _

theorem popWaiting_perm (policy : SchedulingPolicy) (hr : s.peekWaiting skipped = some r) :
    (r :: ((s.popWaiting policy skipped).waiting ++
      (s.popWaiting policy skipped).skippedWaiting)).Perm (s.waiting ++ s.skippedWaiting) := by
  cases skipped with
  | false => exact (popRequest_perm policy s.lt hr).append_right _
  | true =>
    exact perm_middle.symm.trans
      ((popRequest_perm policy s.lt hr).append_left s.waiting)

omit [LinearOrder α] in
theorem mem_of_peekWaiting (hr : s.peekWaiting skipped = some r) :
    r ∈ s.waiting ++ s.skippedWaiting := by
  cases skipped with
  | false => exact mem_append_left _ (mem_of_head? hr)
  | true => exact mem_append_right _ (mem_of_head? hr)

theorem Conserved.setAside {extra' : List α} (h : s.Conserved extra) (policy : SchedulingPolicy)
    (hr : s.peekWaiting skipped = some r) (hq : SameQueues (s.popWaiting policy skipped) s')
    (hextra : extra'.Perm (r :: extra)) (hfin : ∀ x, (s'.objs x).isFinished = (s.objs x).isFinished)
    (hrun : ∀ x, (s'.objs x).status = .running ↔ (s.objs x).status = .running) :
    s'.Conserved extra' := by
  have hrequests : s'.requests = s.requests := by
    rw [hq.requests]
    cases skipped <;> rfl
  have hrunning : s'.running = s.running := by
    rw [hq.running]
    cases skipped <;> rfl
  refine congr h (fun x => ?_) (fun x => ?_) (by rw [hrunning]) ?_
  · unfold Live
    rw [hrequests, hfin]
  · unfold Runs
    rw [hrequests, hrun]
  · rw [hq.waiting, hq.skippedWaiting]
    exact (hextra.append_left _).trans (perm_middle.trans
      ((popWaiting_perm policy hr).append_right extra))

theorem Conserved.started (h : s.Conserved extra) (policy : SchedulingPolicy)
    (hr : s.peekWaiting skipped = some r) (hrunning : s'.running = s.running ++ [r])
    (hwaiting : s'.waiting = (s.popWaiting policy skipped).waiting)
    (hskipped : s'.skippedWaiting = (s.popWaiting policy skipped).skippedWaiting)
    (hrequests : s'.requests = s.requests) (hother : ∀ x, x ≠ r → s'.objs x = s.objs x)
    (hstatus : (s'.objs r).status = .running) : s'.Conserved extra := by
  have hmem : r ∈ s.waiting ++ s.skippedWaiting ++ extra :=
    mem_append_left _ (mem_of_peekWaiting hr)
  have hlive : s.Live r := live_of_mem h (.inr hmem)
  refine congr (resume h hmem) (fun x => ?_) (fun x => ?_) (by rw [hrunning]) ?_
  · by_cases hx : x = r
    · subst hx
      refine ⟨fun _ => hlive, fun _ => ⟨by rw [hrequests]; exact hlive.1, ?_⟩⟩
      unfold Request.isFinished
      rw [hstatus]
      rfl
    · unfold Live
      rw [hrequests, hother x hx]
  · by_cases hx : x = r
    · subst hx
      exact ⟨fun _ => .inr rfl, fun _ => ⟨by rw [hrequests]; exact hlive.1, hstatus⟩⟩
    · unfold Runs
      rw [hrequests, hother x hx]
      simp [hx]
  · rw [hwaiting, hskipped]
    have hp := ((popWaiting_perm policy hr).append_right extra).erase r
    rwa [cons_append, erase_cons_head] at hp

end Scheduler

/-! The two passes. -/

namespace RunningPhase

theorem Move.conserved {e : Core α ε} {V : RunningPhase α ε → α → Prop}
    {st st' : RunningPhase α ε} (h : st.sched.Conserved []) (hmove : Move e V st st') :
    st'.sched.Conserved [] := by
  cases hmove with
  | skip => exact h
  | encoder _ req n plan hplan =>
    obtain ⟨encoder, rfl⟩ := planEncoder_sched hplan
    exact h.same_status ⟨rfl, rfl, rfl, rfl⟩ (fun _ => rfl)
  | schedule r n kv blocks plan encoder hr hn halloc hgrant =>
    exact h.same_status ⟨rfl, rfl, rfl, rfl⟩ (modify_status st.sched r
      (f := fun req => { req with specTokenIds := [] }) (fun _ => rfl))
  | preempt _ r n kv v hr hn halloc hV hpre =>
    obtain ⟨hmem, -, rfl⟩ := preempt_ok hpre
    have hkv : (st.withKV kv).sched.Conserved [] :=
      h.same_status ⟨rfl, rfl, rfl, rfl⟩ (fun _ => rfl)
    rw [takeOut_sched]
    exact hkv.preempted e hmem (.refl _)

end RunningPhase

namespace WaitingPhase

theorem Move.conserved {e : Core α ε} {inp : ScheduleInput α}
    {L : KVCacheManager α → Request α → Admission → Prop} {st st' : WaitingPhase α ε}
    (h : st.sched.Conserved st.stepSkippedWaiting) (hmove : Move e inp L st st') :
    st'.sched.Conserved st'.stepSkippedWaiting := by
  cases hmove with
  | encoder _ req adm n plan hplan =>
    obtain ⟨encoder, rfl⟩ := planEncoder_sched hplan
    exact h.same_status ⟨rfl, rfl, rfl, rfl⟩ (fun _ => rfl)
  | promote skipped r s ready hr hs =>
    obtain ⟨hq, -, hother, hblocked, hself⟩ := tryPromote_ok hs
    have hbefore := RequestStatus.of_isBlockedWaiting hblocked
    have hafter : (s.objs r).status.isFinished = false ∧ (s.objs r).status ≠ .running := by
      obtain hself | ⟨-, status, computed, hself, hstatus, -⟩ := hself <;> rw [hself]
      · exact hbefore
      · obtain rfl | rfl := hstatus <;> exact ⟨rfl, nofun⟩
    refine h.frame hq (fun x => ?_) (fun x => ?_)
    · by_cases hx : x = r
      · subst hx
        exact hafter.1.trans hbefore.1.symm
      · rw [hother x hx]
    by_cases hx : x = r
    · subst hx
      exact iff_of_false hafter.2 hbefore.2
    · rw [hother x hx]
  | skip skipped r hr =>
    exact h.setAside e.policy hr (.refl _)
      (prependRequest_perm e.policy _ _ r) (fun x => by cases skipped <;> rfl)
      (fun x => by cases skipped <;> rfl)
  | fail skipped r adm g kv hr hlookup hL halloc =>
    exact h.same_status ⟨rfl, rfl, rfl, rfl⟩ (fun _ => rfl)
  | awaitLoad skipped r adm g kv blocks hr hlookup hL halloc hload =>
    have hmem : r ∈ st.sched.waiting ++ st.sched.skippedWaiting ++ st.stepSkippedWaiting :=
      mem_append_left _ (mem_of_peekWaiting hr)
    have hlive : st.sched.Live r := live_of_mem h (.inr hmem)
    have hidle : (st.sched.objs r).status ≠ .running := fun hs =>
      not_mem_rest h ((acts h r).mpr ⟨hlive.1, hs⟩) hmem
    have hobjs := awaitLoad_objs e st kv skipped r adm
    refine h.setAside e.policy hr (by cases skipped <;> exact ⟨rfl, rfl, rfl, rfl⟩)
      (prependRequest_perm e.policy _ _ r) (fun x => ?_) (fun x => ?_)
    · by_cases hx : x = r
      · subst hx
        rw [hobjs, if_pos rfl]
        exact hlive.2.symm
      · rw [hobjs, if_neg hx]
    · by_cases hx : x = r
      · subst hx
        rw [hobjs, if_pos rfl]
        exact iff_of_false nofun hidle
      · rw [hobjs, if_neg hx]
  | start skipped r adm g kv blocks hr hlookup hL halloc hload hstatus encoder henc hgrant =>
    have hobjs := started_objs e st kv skipped r adm g encoder
    refine h.started e.policy hr (by cases skipped <;> rfl) (by cases skipped <;> rfl)
      (by cases skipped <;> rfl) (by cases skipped <;> rfl) (fun x hx => ?_) ?_
    · rw [hobjs, if_neg hx]
    · rw [hobjs, if_pos rfl]

end WaitingPhase

namespace Scheduler

theorem Conserved.requeue (e : Core α ε) {st : WaitingPhase α ε}
    (h : st.sched.Conserved st.stepSkippedWaiting) : (st.requeue e).Conserved [] := by
  refine congr h (fun _ => Iff.rfl) (fun _ => Iff.rfl) (.refl _) ?_
  have hperm := prependRequests_perm e.policy st.sched.lt
    st.sched.skippedWaiting st.stepSkippedWaiting
  have hswap := (hperm.trans perm_append_comm).append_left st.sched.waiting
  rw [append_nil, append_assoc]
  exact hswap

variable {e : Core α ε} {inp : ScheduleInput α} {defer : Scheduler α ε → α → Bool} {p : Plan α ε}
  {s s' : Scheduler α ε} {out : SchedulerOutput α}

theorem Conserved.waitingPass {st : RunningPhase α ε} (h : st.sched.Conserved [])
    (hp : waitingPass e inp defer st = .ok p) : p.sched.Conserved [] := by
  simp only [Scheduler.waitingPass, seq_ok_iff] at hp
  obtain ⟨-, -, w, hw, hp⟩ := hp
  cases hp
  refine Conserved.requeue e ?_
  split at hw
  · exact invariant_of_moves (I := fun w : WaitingPhase α ε =>
      w.sched.Conserved w.stepSkippedWaiting) (fun _ _ h hmove => hmove.conserved h) h
      (WaitingPhase.loop_moves (WaitingPhase.passOK_true _) hw)
  · cases hw
    exact h

theorem Conserved.plan {admitted : Option (List α)} {victim : Scheduler α ε → Nat → α → Option α}
    (h : s.Conserved []) (hp : plan e inp admitted victim defer s = .ok p) :
    p.sched.Conserved [] := by
  simp only [Scheduler.plan, seq_ok_iff] at hp
  obtain ⟨st, hst, hp⟩ := hp
  have hstart : ({ s with kv := s.kv.newStepStarts } : Scheduler α ε).Conserved [] :=
    h.same_status ⟨rfl, rfl, rfl, rfl⟩ (fun _ => rfl)
  refine Conserved.waitingPass ?_ hp
  exact invariant_of_moves (I := fun st : RunningPhase α ε => st.sched.Conserved [])
    (fun _ _ h hmove => hmove.conserved h) hstart
    (RunningPhase.loop_moves (RunningPhase.passOK_true _) hst)

omit [LinearOrder α] in
theorem advance_status (c : SchedulerConfig) (n : Int) (numSpec : Nat) (req : Request α) :
    (advance c n numSpec req).status = req.status := by
  unfold advance
  dsimp only
  split <;> rfl

theorem updateAfterSchedule_ok {c : SchedulerConfig} {spec : List (α × List Int)}
    {scheduled : List (α × Int)} (h : s.updateAfterSchedule c spec scheduled = .ok s') :
    SameQueues s s' ∧ ∀ x, (s'.objs x).status = (s.objs x).status := by
  induction scheduled generalizing s with
  | nil =>
    cases h
    exact ⟨⟨rfl, rfl, rfl, rfl⟩, fun _ => rfl⟩
  | cons y ys ih =>
    obtain ⟨r, n⟩ := y
    unfold updateAfterSchedule at h
    split at h
    · obtain ⟨hq, hs⟩ := ih h
      refine ⟨⟨hq.running, hq.waiting, hq.skippedWaiting, hq.requests⟩, fun x => (hs x).trans ?_⟩
      exact modify_status s r (advance_status c n _) x
    · cases h

theorem Conserved.issue {features : Scheduler α ε → List (α × Int) → StepFeatures}
    (h : p.sched.Conserved []) (hs : issue e features p = .ok (s, out)) : s.Conserved [] := by
  simp only [Scheduler.issue, seq_ok_iff] at hs
  obtain ⟨-, -, newData, -, runningRows, -, resumedRows, -, s1, hs1, hs⟩ := hs
  cases hs
  obtain ⟨hq, hstatus⟩ := updateAfterSchedule_ok hs1
  exact h.same_status ⟨hq.running, hq.waiting, hq.skippedWaiting, hq.requests⟩ hstatus

theorem Conserved.schedule {e : Env α ε κ} {k k' : κ} (h : s.Conserved [])
    (hs : s.schedule e inp k = .ok (s', k', out)) : s'.Conserved [] := by
  simp only [Scheduler.schedule, seq_ok_iff] at hs
  obtain ⟨p, hp, ⟨s1, out1⟩, hissue, hs⟩ := hs
  cases hs
  exact (h.plan hp).issue hissue

end Scheduler
end TailBlend
