import TailBlend.RequestUpdates

/-! Conservation of requests over whole runs. -/
namespace TailBlend
open OrderedDict List
variable {α ε κ : Type} [LinearOrder α] {e : Core α ε}

/-! The plan of a step names a request once. -/

theorem RunningPhase.Move.nodup_keys {V : RunningPhase α ε → α → Prop}
    {st st' : RunningPhase α ε} (h : (st.numScheduledTokens.map Prod.fst).Nodup)
    (hmove : Move e V st st') : (st'.numScheduledTokens.map Prod.fst).Nodup := by
  cases hmove with
  | skip => exact h
  | encoder _ req n plan hplan =>
    obtain ⟨encoder, rfl⟩ := planEncoder_sched hplan
    exact h
  | schedule r n kv blocks plan encoder hr hn halloc hgrant => exact nodup_keys_set h r n
  | preempt _ r n kv v hr hn halloc hV hpre =>
    obtain ⟨-, -, rfl⟩ := preempt_ok hpre
    unfold takeOut
    dsimp only
    split
    · exact nodup_keys_erase h v
    · exact h

theorem WaitingPhase.Move.nodup_keys {inp : ScheduleInput α}
    {L : KVCacheManager α → Request α → Admission → Prop} {st st' : WaitingPhase α ε}
    (h : (st.numScheduledTokens.map Prod.fst).Nodup) (hmove : Move e inp L st st') :
    (st'.numScheduledTokens.map Prod.fst).Nodup := by
  cases hmove with
  | encoder _ req adm n plan hplan =>
    obtain ⟨encoder, rfl⟩ := planEncoder_sched hplan
    exact h
  | promote skipped r s ready hr hs => exact h
  | skip skipped r hr => exact h
  | fail skipped r adm g kv hr hlookup hL halloc => exact h
  | awaitLoad skipped r adm g kv blocks hr hlookup hL halloc hload => exact h
  | start skipped r adm g kv blocks hr hlookup hL halloc hload hstatus encoder henc hgrant =>
    exact nodup_keys_set h r g.numNewTokens

namespace Scheduler

variable {inp : ScheduleInput α} {s : Scheduler α ε}

theorem plan_nodup_keys {admitted : Option (List α)}
    {victim : Scheduler α ε → Nat → α → Option α} {defer : Scheduler α ε → α → Bool} {p : Plan α ε}
    (hp : plan e inp admitted victim defer s = .ok p) :
    (p.numScheduledTokens.map Prod.fst).Nodup := by
  simp only [plan, waitingPass, seq_ok_iff] at hp
  obtain ⟨st, hst, -, -, w, hw, hp⟩ := hp
  cases hp
  have hfirst : (st.numScheduledTokens.map Prod.fst).Nodup := by
    refine invariant_of_moves (I := fun x : RunningPhase α ε =>
      (x.numScheduledTokens.map Prod.fst).Nodup) (fun _ _ h hmove => hmove.nodup_keys h) ?_
      (RunningPhase.loop_moves (RunningPhase.passOK_true _) hst)
    exact nodup_nil
  split at hw
  · exact invariant_of_moves
      (I := fun w : WaitingPhase α ε => (w.numScheduledTokens.map Prod.fst).Nodup)
      (fun _ _ h hmove => hmove.nodup_keys h) hfirst
      (WaitingPhase.loop_moves (WaitingPhase.passOK_true _) hw)
  · cases hw
    exact hfirst

theorem schedule_nodup_keys {e : Env α ε κ} {s' : Scheduler α ε} {k k' : κ}
    {out : SchedulerOutput α} (hs : s.schedule e inp k = .ok (s', k', out)) :
    (out.numScheduledTokens.map Prod.fst).Nodup := by
  simp only [schedule, issue, seq_ok_iff] at hs
  obtain ⟨p, hp, ⟨s1, out1⟩, ⟨-, -, newData, -, rows, -, resumed, -, s2, -, hout⟩, hs⟩ := hs
  obtain ⟨-, rfl⟩ := Prod.mk.inj (Except.ok.inj hout)
  obtain ⟨-, h⟩ := Prod.mk.inj (Except.ok.inj hs)
  obtain ⟨-, rfl⟩ := Prod.mk.inj h
  exact plan_nodup_keys hp

end Scheduler

namespace System

structure Conserves (sys : System α ε κ) : Prop where
  sched : sys.sched.Conserved []
  inFlight : ∀ out ∈ sys.inFlight, (out.numScheduledTokens.map Prod.fst).Nodup

/-- Where the output of the oldest step in flight arrives, every request that it stops while the
request does not run is found in the queue that `update_from_output` assumes. -/
def StopsFound (e : SchedulerConfig) (sys : System α ε κ) : Event α → Prop
  | .updateFromOutput mo => ∀ out ∈ sys.inFlight.head?, sys.sched.StopsFound e out mo
  | _ => True

theorem Conserves.step {e : Env α ε κ} {sys sys' : System α ε κ} {ev : Event α}
    (h : sys.Conserves) (hcond : sys.StopsFound e.toSchedulerConfig ev)
    (hstep : sys.step e ev = .ok sys') : sys'.Conserves := by
  cases ev with
  | addRequest args connector now =>
    simp only [System.step, seq_ok_iff] at hstep
    obtain ⟨⟨s, k⟩, hs, hstep⟩ := hstep
    cases hstep
    obtain ⟨hfin, hrun⟩ := Request.new_status args
    exact ⟨h.sched.addRequest hfin hrun hs, h.inFlight⟩
  | schedule inp =>
    simp only [System.step, seq_ok_iff] at hstep
    obtain ⟨⟨s, k, out⟩, hs, hstep⟩ := hstep
    cases hstep
    refine ⟨h.sched.schedule hs, fun x hx => ?_⟩
    obtain hx | hx := mem_append.mp hx
    · exact h.inFlight x hx
    · obtain rfl := mem_singleton.mp hx
      exact Scheduler.schedule_nodup_keys hs
  | updateFromOutput mo =>
    unfold System.step at hstep
    cases hfl : sys.inFlight with
    | nil =>
      simp only [hfl] at hstep
      cases hstep
      exact h
    | cons out rest =>
      simp only [hfl, seq_ok_iff] at hstep
      obtain ⟨⟨s, k, outputs⟩, hs, hstep⟩ := hstep
      cases hstep
      have hnodup : (out.numScheduledTokens.map Prod.fst).Nodup := h.inFlight out (by simp [hfl])
      have hfound := hcond out (by simp [hfl])
      exact ⟨h.sched.updateFromOutput hnodup hfound hs,
        fun x hx => h.inFlight x (by rw [hfl]; exact mem_cons_of_mem _ hx)⟩
  | updateDraftTokenIds drafts =>
    cases hstep
    exact ⟨h.sched.updateDraftTokenIds drafts, h.inFlight⟩
  | finishRequests ids status connector now =>
    simp only [System.step, seq_ok_iff] at hstep
    obtain ⟨⟨s, k⟩, hs, hstep⟩ := hstep
    cases hstep
    exact ⟨h.sched.finishRequests hs, h.inFlight⟩
  | resetPrefixCache reset =>
    simp only [System.step, seq_ok_iff] at hstep
    obtain ⟨⟨s, ok⟩, hs, hstep⟩ := hstep
    cases hstep
    exact ⟨h.sched.resetPrefixCache hs, h.inFlight⟩
  | setPauseState state =>
    cases hstep
    exact ⟨h.sched.same_status ⟨rfl, rfl, rfl, rfl⟩ (fun _ => rfl), h.inFlight⟩

theorem conserves_init (kv : KVCacheManager α) (encoder : ε) (objs : α → Request α) (k : κ) :
    (System.mk (.init kv encoder objs) k []).Conserves := by
  refine ⟨⟨fun r hr => ?_, fun r _ => rfl, fun r => ?_⟩, nofun⟩
  · exact absurd hr.1 not_mem_nil
  · exact iff_of_false not_mem_nil (fun hr => not_mem_nil hr.1)

/-- In every run in which the outputs find the requests they stop, each unfinished request sits
once in one queue, in `running` exactly when its status says so, and the queues hold nothing
else. -/
theorem run_conserves_requests {e : Env α ε κ} (kv : KVCacheManager α) (encoder : ε)
    (objs : α → Request α) (k : κ) {evs : List (Event α)} {sys : System α ε κ}
    (hfound : Trace.Meets (step e) (StopsFound e.toSchedulerConfig)
      ⟨.init kv encoder objs, k, []⟩ evs)
    (hrun : System.run e ⟨.init kv encoder objs, k, []⟩ evs = .ok sys) :
    (∀ r ∈ sys.sched.requests, (sys.sched.objs r).isFinished = false →
      sys.sched.running.count r + sys.sched.waiting.count r +
        sys.sched.skippedWaiting.count r = 1 ∧
      (r ∈ sys.sched.running ↔ (sys.sched.objs r).status = .running)) ∧
    ∀ r, r ∉ sys.sched.requests ∨ (sys.sched.objs r).isFinished = true →
      r ∉ sys.sched.running ∧ r ∉ sys.sched.waiting ∧ r ∉ sys.sched.skippedWaiting := by
  have hcons : sys.Conserves := Trace.run_induct (fun _ _ _ hI hP hstep => hI.step hP hstep)
    (conserves_init kv encoder objs k) hfound hrun
  have htally := hcons.sched
  refine ⟨fun r hr hfin => ⟨?_, ?_⟩, fun r hr => ?_⟩
  · have hone := htally.once r ⟨hr, hfin⟩
    simpa [Nat.add_assoc] using hone
  · exact (htally.acts r).trans ⟨fun h => h.2, fun h => ⟨hr, h⟩⟩
  have hdead : ¬sys.sched.Live r := by
    rintro ⟨hmem, hfin⟩
    obtain hr | hr := hr
    · exact hr hmem
    · exact Bool.false_ne_true (hfin.symm.trans hr)
  have hzero := htally.never r hdead
  simp only [append_nil, count_append, Nat.add_eq_zero_iff, count_eq_zero] at hzero
  exact ⟨hzero.1, hzero.2⟩

/-! A request that stops while it is set aside, and one that stops in `waiting`. -/

def loraConfig : SchedulerConfig :=
  { SchedulerConfig.text 2 8 with policy := .priority, maxLoras := some 1 }

def loraArgs (r : Nat) (priority : Int) (lora : LoRARequest) : Request.Args Nat :=
  { Request.Args.text r 0 [1, 2, 3] 1 with priority := priority, loraRequest := some lora }

def loraSystem : System Nat Unit Unit := .text (.text 2 9 Nat.two_pos false)

/-- Request 0 runs and is preempted by the reset while its output is in flight. -/
def preemptedInFlight : List (Event Nat) :=
  [.addRequest (loraArgs 0 1 ⟨"second", 2⟩) none 0, .schedule .text,
    .addRequest (loraArgs 1 0 ⟨"first", 1⟩) none 0, .resetPrefixCache true]

def firstToken : ModelOutput Nat := .text (fun r => if r = 0 then [7] else [])

/-- Request 1 starts first and uses up the only LoRA slot, so request 0 is set aside before its
output arrives: it is freed, but stays in `skipped_waiting`. -/
theorem freed_request_in_skippedWaiting :
    ∃ sys, loraSystem.run (.text loraConfig) (preemptedInFlight ++
        [.schedule .text, .updateFromOutput firstToken]) = .ok sys ∧
      0 ∉ sys.sched.requests ∧ 0 ∈ sys.sched.skippedWaiting := by
  have hval : (loraSystem.run (.text loraConfig) (preemptedInFlight ++
      [.schedule .text, .updateFromOutput firstToken])).toOption.any (fun sys =>
        decide (0 ∉ sys.sched.requests ∧ 0 ∈ sys.sched.skippedWaiting)) = true := by
    decide +kernel
  obtain ⟨sys, hrun, hval⟩ := ok_of_any hval
  exact ⟨sys, hrun, of_decide_eq_true hval⟩

/-- A sufficient test: only waiting requests whose session does not go on. -/
def stoppedWaits (sys : System Nat Unit Unit) : Event Nat → Bool
  | .updateFromOutput _ => sys.inFlight.head?.all (fun out => out.numScheduledTokens.all (fun x =>
      decide ((sys.sched.objs x.1).resumable = false ∧ x.1 ∈ sys.sched.waiting)))
  | _ => true

theorem stopsFound_of_stoppedWaits {c : SchedulerConfig} (sys : System Nat Unit Unit)
    (ev : Event Nat) (h : stoppedWaits sys ev = true) : sys.StopsFound c ev := by
  cases ev with
  | updateFromOutput mo =>
    intro out hout s1 failed _ r hr _ _ _ _
    rw [stoppedWaits, hout] at h
    obtain ⟨x, hx, rfl⟩ := mem_map.mp hr
    obtain ⟨hres, hwait⟩ := of_decide_eq_true (all_eq_true.mp h x hx)
    refine ⟨fun hgo => ?_, fun _ => hwait⟩
    exact absurd (hres.symm.trans hgo.2.1) Bool.false_ne_true
  | _ => trivial

theorem run_conserves_requests_in_waiting :
    ∃ sys, loraSystem.run (.text loraConfig) (preemptedInFlight ++
        [.updateFromOutput firstToken]) = .ok sys ∧
      sys.sched.running.count 1 + sys.sched.waiting.count 1 + sys.sched.skippedWaiting.count 1 = 1 ∧
      0 ∉ sys.sched.waiting := by
  have hval : (loraSystem.run (.text loraConfig) (preemptedInFlight ++
      [.updateFromOutput firstToken])).toOption.any (fun sys =>
        decide (1 ∈ sys.sched.requests ∧ (sys.sched.objs 1).isFinished = false ∧
          0 ∉ sys.sched.requests)) = true := by
    decide +kernel
  have htest : Trace.passes (step (.text loraConfig)) stoppedWaits loraSystem (preemptedInFlight ++
      [.updateFromOutput firstToken]) = true := by
    decide +kernel
  obtain ⟨sys, hrun, hval⟩ := ok_of_any hval
  obtain ⟨hmem, hfin, hgone⟩ := of_decide_eq_true hval
  obtain ⟨hlive, hdead⟩ := run_conserves_requests _ _ _ _
    (Trace.meets_of_passes stopsFound_of_stoppedWaits htest) hrun
  exact ⟨sys, hrun, (hlive 1 hmem hfin).1, (hdead 0 (.inl hgone)).2.1⟩

end System
end TailBlend
