import TailBlend.RequestEffects

/-! The output positions of the steps in flight, and how the counters of a request follow
them. -/
namespace TailBlend
open OrderedDict Scheduler Request List
variable {α ε κ : Type} [LinearOrder α]

/-- The output positions of a step for a request: one and its drafts, or none while its tokens
are not all computed. `s` is the state after the step was issued. -/
def Scheduler.positions (s : Scheduler α ε) (out : SchedulerOutput α) (x : α) : Nat :=
  if x ∈ out.numScheduledTokens.map Prod.fst ∧ (s.objs x).isPrefillChunk = false then
    1 + (draftsOf out x).length
  else 0

/-- A system with the output positions of its steps in flight, and for each request the number
of those that were issued before its last forced preemption. -/
structure Tracked (α ε κ : Type) where
  sys : System α ε κ
  issued : List (α → Nat)
  stale : α → Nat

namespace Tracked

def track (t : Tracked α ε κ) (sys : System α ε κ) : Event α → Tracked α ε κ
  | .schedule _ =>
    { t with
      sys := sys
      issued := t.issued ++ (sys.inFlight.getLast?.map sys.sched.positions).toList }
  | .updateFromOutput _ => ⟨sys, t.issued.tail, fun x => t.stale x - 1⟩
  | .resetPrefixCache true =>
    { t with
      sys := sys
      stale := fun x => if x ∈ t.sys.sched.running then t.issued.length else t.stale x }
  | _ => { t with sys := sys }

def step (e : Env α ε κ) (t : Tracked α ε κ) (ev : Event α) : Except PyError (Tracked α ε κ) := do
  let sys ← t.sys.step e ev
  return t.track sys ev

def init (sys : System α ε κ) : Tracked α ε κ := ⟨sys, [], fun _ => 0⟩

def awaited (t : Tracked α ε κ) (x : α) : Nat := ((t.issued.drop (t.stale x)).map (· x)).sum

def outdated (t : Tracked α ε κ) (x : α) : Nat := ((t.issued.take (t.stale x)).map (· x)).sum

end Tracked

/-! One request. -/

namespace Request

/-- The counters of a request agree with the output positions in flight for it. -/
structure Agrees (c : SchedulerConfig) (req : Request α) (awaited outdated : Nat) : Prop where
  plain : req.resumable = false
  placeholders : req.numOutputPlaceholders = if c.asyncScheduling then (awaited : Int) else 0
  discards : c.asyncScheduling = true → outdated = if req.discardLatestAsyncTokens then 1 else 0
  computed : req.numComputedTokens ≤ req.numTokens + awaited
  running : req.status = .running → req.numComputedTokens < req.numTokens + awaited

variable {c : SchedulerConfig} {req : Request α} {a o : Nat}

section
omit [LinearOrder α]

theorem agrees_new {args : Args α} (hplain : args.resumable = false) : (new args).Agrees c 0 0 := by
  have heq : ∃ hashes, new args = { unhashed args with blockHashes := hashes } := by
    unfold new updateBlockHashes
    split <;> exact ⟨_, rfl⟩
  obtain ⟨hashes, heq⟩ := heq
  have hstatus := (new_status args).2
  rw [heq] at hstatus ⊢
  refine ⟨hplain, by simp [unhashed], fun _ => by simp [unhashed], ?_, fun h => absurd h hstatus⟩
  change (0 : Int) ≤ _
  unfold numTokens
  omega

theorem Agrees.preempt (h : req.Agrees c a o) : req.preempt.Agrees c a o where
  plain := h.plain
  placeholders := h.placeholders
  discards := h.discards
  computed := by
    change (0 : Int) ≤ req.numTokens + a
    unfold numTokens
    omega
  running := nofun

theorem Agrees.promoted {req' : Request α} (h : req.Agrees c a o) (hready : req.Promoted req') :
    req'.Agrees c a o := by
  obtain ⟨-, status, computed, rfl, hstatus, hcount⟩ := hready
  refine ⟨h.plain, h.placeholders, h.discards, ?_, fun hrun => ?_⟩
  · have := h.computed
    change computed ≤ req.numTokens + a
    omega
  · rcases hstatus with rfl | rfl <;> cases hrun

theorem Agrees.loading (h : req.Agrees c a o) {m : Int} (hm : m ≤ req.numTokens) :
    ({ req with
      status := .waitingForRemoteKvs, numComputedTokens := m } : Request α).Agrees c a o where
  plain := h.plain
  placeholders := h.placeholders
  discards := h.discards
  computed := by
    change m ≤ req.numTokens + a
    omega
  running := nofun

theorem scheduledDrafts_length (req : Request α) (n : Int) :
    ((RunningPhase.scheduledDrafts req n).length : Int) =
      min (max 0 (n + req.numComputedTokens - req.numTokens - req.numOutputPlaceholders))
        req.specTokenIds.length := by
  unfold RunningPhase.scheduledDrafts
  dsimp only
  split_ifs with h
  · rw [length_take]
    omega
  · simp
    omega

theorem advance_eq (c : SchedulerConfig) (n : Int) (d : Nat) (req : Request α) :
    ∃ spec, advance c n d req = { req with
      numComputedTokens := req.numComputedTokens + n
      isPrefillChunk := req.numComputedTokens + n < req.numTokens + req.numOutputPlaceholders
      numOutputPlaceholders := if c.asyncScheduling ∧
          ¬req.numComputedTokens + n < req.numTokens + req.numOutputPlaceholders then
        req.numOutputPlaceholders + 1 + d else req.numOutputPlaceholders
      specTokenIds := spec } := by
  unfold advance
  by_cases hc : c.asyncScheduling = true ∧
      ¬req.numComputedTokens + n < req.numTokens + req.numOutputPlaceholders
  · rw [if_pos ⟨hc.1, decide_eq_false hc.2⟩, if_pos hc]
    exact ⟨_, rfl⟩
  · rw [if_neg (fun h => hc ⟨h.1, of_decide_eq_false h.2⟩), if_neg hc]
    exact ⟨_, rfl⟩

variable {n : Int} {p : Nat}

theorem agrees_advance (req : Request α) (hplain : req.resumable = false)
    (hpl : req.numOutputPlaceholders = if c.asyncScheduling then (a : Int) else 0)
    (hdiscards : c.asyncScheduling = true → o = if req.discardLatestAsyncTokens then 1 else 0)
    {d : Nat} (hle : req.numComputedTokens + n ≤ req.numTokens + req.numOutputPlaceholders + d ∨
      req.numComputedTokens + n < req.numTokens + a)
    (hp : p = if (advance c n d req).isPrefillChunk = false then 1 + d else 0) :
    (advance c n d req).Agrees c (a + p) o := by
  obtain ⟨spec, heq⟩ := advance_eq c n d req
  rw [heq] at hp ⊢
  simp only [decide_eq_false_iff_not] at hp
  by_cases hchunk : req.numComputedTokens + n < req.numTokens + req.numOutputPlaceholders
  · rw [if_neg (not_not.mpr hchunk)] at hp
    subst hp
    have hlt : req.numComputedTokens + n < req.numTokens + (a + 0 : Nat) := by
      rw [hpl] at hchunk
      split_ifs at hchunk <;> omega
    refine ⟨hplain, ?_, hdiscards, hlt.le, fun _ => hlt⟩
    simpa [hchunk] using hpl
  rw [if_pos hchunk] at hp
  have hlt : req.numComputedTokens + n < req.numTokens + (a + p : Nat) := by
    rw [hpl] at hle
    split_ifs at hle <;> omega
  refine ⟨hplain, ?_, hdiscards, hlt.le, fun _ => hlt⟩
  simp only [hchunk, not_false_eq_true, and_true]
  by_cases hasync : c.asyncScheduling = true
  · rw [if_pos hasync] at hpl
    rw [if_pos hasync, if_pos hasync]
    omega
  · rw [if_neg hasync] at hpl
    rw [if_neg hasync, if_neg hasync, hpl]

theorem Agrees.ran (h : req.Agrees c a o) (hrun : req.status = .running)
    (hle : n ≤ max 0 (req.numTokensWithSpec + req.numOutputPlaceholders - req.numComputedTokens))
    (hp : p = if (advance c n (RunningPhase.scheduledDrafts req n).length
        { req with specTokenIds := [] }).isPrefillChunk = false then
      1 + (RunningPhase.scheduledDrafts req n).length else 0) :
    (advance c n (RunningPhase.scheduledDrafts req n).length
      { req with specTokenIds := [] }).Agrees c (a + p) o := by
  refine agrees_advance { req with specTokenIds := [] } h.plain h.placeholders h.discards ?_ hp
  have hlen := scheduledDrafts_length req n
  have hlt := h.running hrun
  have hspec : req.numTokensWithSpec = req.numTokens + req.specTokenIds.length := rfl
  change req.numComputedTokens + n ≤ req.numTokens + req.numOutputPlaceholders +
    (RunningPhase.scheduledDrafts req n).length ∨ req.numComputedTokens + n < req.numTokens + a
  omega

theorem Agrees.started (h : req.Agrees c a o) {m : Int} (hn : m + n ≤ req.numTokens)
    (hp : p = if (advance c n 0 { req with
        status := .running, numComputedTokens := m }).isPrefillChunk = false then 1 else 0) :
    (advance c n 0 { req with
      status := .running, numComputedTokens := m }).Agrees c (a + p) o := by
  refine agrees_advance { req with status := .running, numComputedTokens := m }
    h.plain h.placeholders h.discards (.inl ?_) hp
  have hpl := h.placeholders
  change m + n ≤ req.numTokens + req.numOutputPlaceholders + (0 : Nat)
  split_ifs at hpl <;> omega

/-! The output of a step. -/

theorem settled_eq {drafts generated : List Int} (hne : generated ≠ [])
    (hlen : generated.length ≤ 1 + drafts.length) :
    req.settled drafts generated = { req with
      numComputedTokens := if req.numComputedTokens > 0 then
        req.numComputedTokens - (drafts.length - (generated.length - 1)) else req.numComputedTokens
      numOutputPlaceholders := if req.numOutputPlaceholders > 0 then
        req.numOutputPlaceholders - (drafts.length - (generated.length - 1))
        else req.numOutputPlaceholders } := by
  unfold settled
  by_cases hd : drafts = []
  · have hone : generated.length = 1 := by
      have := length_pos_iff.mpr hne
      rw [hd] at hlen
      simp at hlen
      omega
    rw [hd, hone]
    simp
  · rw [if_pos ⟨hd, hne⟩]
    rfl

theorem settled_nil (drafts : List Int) : req.settled drafts [] = req := if_neg (fun h => h.2 rfl)

end

/-- What a worker returns for a request with `p` output positions in the step: at most that many
tokens and, if there are any positions, at least one token or a pooling output. -/
structure Returned (mo : ModelOutput α) (r : α) (req : Request α) (p : Nat) : Prop where
  le : (mo.sampledTokenIds r).length ≤ p
  some : p ≠ 0 → mo.sampledTokenIds r ≠ [] ∨ req.pooling = true ∧ mo.pooled r = true

section output
variable {mo : ModelOutput α} {r : α} {drafts : List Int} {mid : Request α} {kept : List Int}
  {p : Nat}

section
omit [LinearOrder α]

theorem Takes.idle (hret : Returned mo r req p) (hnil : mo.sampledTokenIds r = [])
    (h : (req.settled drafts (mo.sampledTokenIds r)).Takes c mo r mid kept false) :
    p = 0 ∧ mid = req := by
  have hp : ¬(req.pooling = true ∧ mo.pooled r = true) → p = 0 := by
    intro hpool
    by_contra h0
    exact (hret.some h0).elim (fun hne => hne hnil) hpool
  rw [hnil, settled_nil] at h
  cases h with
  | sync _ _ _ hne => exact absurd hnil hne
  | discard hne => exact absurd hnil hne
  | async _ _ _ hne => exact absurd hnil hne
  | nothing _ hpool => exact ⟨hp hpool, rfl⟩

theorem Agrees.appends {d : Nat} (h : req.Agrees c d o) (hd : d ≤ a + (1 + drafts.length))
    (hne : mo.sampledTokenIds r ≠ [])
    (hlen : (mo.sampledTokenIds r).length ≤ 1 + drafts.length)
    (hup : (req.settled drafts (mo.sampledTokenIds r)).updateWithOutput c.maxModelLen mo.now
      (mo.sampledTokenIds r) = .ok (mid, kept, false)) :
    kept = mo.sampledTokenIds r ∧ mid.resumable = false ∧
      mid.discardLatestAsyncTokens = req.discardLatestAsyncTokens ∧
      mid.numOutputPlaceholders = (if req.numOutputPlaceholders > 0 then
        req.numOutputPlaceholders - (drafts.length - ((mo.sampledTokenIds r).length - 1))
        else req.numOutputPlaceholders) ∧
      mid.numComputedTokens ≤ mid.numTokens + a ∧
      (mid.status = .running → mid.numComputedTokens < mid.numTokens + a) := by
  have hpos := length_pos_iff.mpr hne
  have hnn : 0 ≤ req.numTokens := Int.natCast_nonneg _
  obtain ⟨happ, hgo, -⟩ := updateWithOutput_appends hup
  obtain ⟨rfl, hstatus⟩ := hgo rfl
  have hnum := happ.numTokens
  obtain ⟨prob, time, hashes, heq⟩ := happ.eq
  rw [settled_eq hne hlen] at heq hnum hstatus
  change mid.numTokens = req.numTokens + _ at hnum
  rw [hnum, heq]
  refine ⟨rfl, h.plain, rfl, rfl, ?_, fun hrun => ?_⟩
  · have := h.computed
    dsimp only
    split_ifs <;> omega
  · have := h.running (hstatus.symm.trans hrun)
    dsimp only
    split_ifs <;> omega

theorem Agrees.takes (h : req.Agrees c (p + a) 0) (hp : p = 0 ∨ p = 1 + drafts.length)
    (hret : Returned mo r req p)
    (htakes : (req.settled drafts (mo.sampledTokenIds r)).Takes c mo r mid kept false) :
    mid.Agrees c a 0 := by
  by_cases hnil : mo.sampledTokenIds r = []
  · obtain ⟨rfl, rfl⟩ := htakes.idle hret hnil
    simpa using h
  have hpos := length_pos_iff.mpr hnil
  have hlen := hret.le
  have hle : p + a ≤ a + (1 + drafts.length) := by omega
  have hpl := h.placeholders
  have hdisc : (req.settled drafts (mo.sampledTokenIds r)).discardLatestAsyncTokens =
      req.discardLatestAsyncTokens := by rw [settled_eq hnil (by omega)]
  cases htakes with
  | sync _ _ _ _ hsync hup =>
    obtain ⟨-, hplain, -, hout, hcomputed, hrunning⟩ := h.appends hle hnil (by omega) hup
    refine ⟨hplain, ?_, fun hasync => absurd (hsync.symm.trans hasync) nofun, hcomputed, hrunning⟩
    rw [hsync] at hpl ⊢
    simpa [hpl] using hout
  | discard _ hasync hflag =>
    have := h.discards hasync
    rw [← hdisc, hflag] at this
    exact absurd this nofun
  | async req1 _ _ _ hasync hflag hup hnonneg =>
    obtain ⟨rfl, hplain, hdisc', hout, hcomputed, hrunning⟩ := h.appends hle hnil (by omega) hup
    refine ⟨hplain, ?_, fun _ => ?_, hcomputed, hrunning⟩
    · rw [if_pos hasync] at hpl ⊢
      rw [if_pos (by omega)] at hout
      change req1.numOutputPlaceholders - _ = (a : Int)
      omega
    · exact (h.discards hasync).trans (by rw [hdisc'])
  | nothing hnil' => exact absurd hnil' hnil

/-- The tokens of a step from before a forced preemption: with asynchronous scheduling they are
discarded and the counters stay. -/
theorem Agrees.takes_outdated (h : req.Agrees c a (p + o)) (hp : p = 0 ∨ p = 1 + drafts.length)
    (hret : Returned mo r req p)
    (htakes : (req.settled drafts (mo.sampledTokenIds r)).Takes c mo r mid kept false) :
    mid.Agrees c a o ∧ (c.asyncScheduling = true →
      mid.numComputedTokens = req.numComputedTokens ∧
      mid.numOutputPlaceholders = req.numOutputPlaceholders) := by
  by_cases hnil : mo.sampledTokenIds r = []
  · obtain ⟨rfl, rfl⟩ := htakes.idle hret hnil
    rw [Nat.zero_add] at h
    exact ⟨h, fun _ => ⟨rfl, rfl⟩⟩
  have hpos := length_pos_iff.mpr hnil
  have hlen := hret.le
  have hpl := h.placeholders
  by_cases hsync : c.asyncScheduling = false
  · refine and_comm.mp ⟨fun hasync => absurd (hsync.symm.trans hasync) nofun, ?_⟩
    cases htakes with
    | sync _ _ _ _ _ hup =>
      obtain ⟨-, hplain, -, hout, hcomputed, hrunning⟩ := h.appends (Nat.le_add_right a _) hnil
        (by omega) hup
      refine ⟨hplain, ?_, fun hasync => absurd (hsync.symm.trans hasync) nofun, hcomputed, hrunning⟩
      rw [hsync] at hpl ⊢
      simpa [hpl] using hout
    | discard _ hasync => exact absurd (hsync.symm.trans hasync) nofun
    | async _ _ _ _ hasync => exact absurd (hsync.symm.trans hasync) nofun
    | nothing hnil' => exact absurd hnil' hnil
  -- one position is outdated, and the flag discards its token
  rw [Bool.not_eq_false] at hsync
  have hdiscards := h.discards hsync
  have hflag : req.discardLatestAsyncTokens = true := by
    by_contra hf
    rw [if_neg hf] at hdiscards
    omega
  rw [if_pos hflag] at hdiscards
  have hnone : drafts = [] := length_eq_zero_iff.mp (by omega)
  rw [settled, if_neg (fun hne => hne.1 hnone)] at htakes
  cases htakes with
  | sync _ _ _ _ hsync' => exact absurd (hsync'.symm.trans hsync) nofun
  | discard =>
    refine ⟨⟨h.plain, hpl, fun _ => ?_, h.computed, h.running⟩, fun _ => ⟨rfl, rfl⟩⟩
    rw [if_neg nofun]
    omega
  | async _ _ _ _ _ hflag' => exact absurd (hflag'.symm.trans hflag) nofun
  | nothing hnil' => exact absurd hnil' hnil

end

end output
end Request

/-! Runs. -/

namespace Tracked

def OfStep (out : SchedulerOutput α) (p : α → Nat) : Prop :=
  ∀ x, p x = 0 ∨ x ∈ out.numScheduledTokens.map Prod.fst ∧
    p x = 1 + (draftsOf out x).length

/-- The counters of every unfinished request agree with the steps in flight. -/
structure Exact (c : SchedulerConfig) (t : Tracked α ε κ) : Prop where
  conserves : t.sys.Conserves
  steps : List.Forall₂ OfStep t.sys.inFlight t.issued
  stale_le : ∀ x, t.stale x ≤ t.issued.length
  agrees : ∀ x, t.sys.sched.Live x →
    (t.sys.sched.objs x).Agrees c (t.awaited x) (t.outdated x)

/-- The workers return what they owe for the oldest step in flight, and report no failed load. -/
structure Served (t : Tracked α ε κ) (mo : ModelOutput α) : Prop where
  loaded : mo.invalidBlockIds = []
  returned : ∀ out ∈ t.sys.inFlight.head?, ∀ p ∈ t.issued.head?,
    ∀ x ∈ out.numScheduledTokens.map Prod.fst, t.sys.sched.Live x →
      Request.Returned mo x (t.sys.sched.objs x) (p x)

/-- No input session, no id of a request in flight, outputs as the workers owe them and, at a
forced preemption, one output position in flight for every running request. -/
def Orderly (c : SchedulerConfig) (t : Tracked α ε κ) : Event α → Prop
  | .addRequest args _ _ => args.resumable = false ∧
      ∀ out ∈ t.sys.inFlight, args.requestId ∉ out.numScheduledTokens.map Prod.fst
  | .updateFromOutput mo => t.Served mo ∧ t.sys.StopsFound c (.updateFromOutput mo)
  | .resetPrefixCache true => c.asyncScheduling = true → ∀ x ∈ t.sys.sched.running,
      (t.issued.map (· x)).sum = 1
  | _ => True

section step
variable {c : SchedulerConfig} {t t' : Tracked α ε κ}

theorem Exact.idle (h : t.Exact c) {x : α}
    (hx : ∀ out ∈ t.sys.inFlight, x ∉ out.numScheduledTokens.map Prod.fst) :
    ∀ p ∈ t.issued, p x = 0 := by
  have hsteps := h.steps
  generalize t.sys.inFlight = outs at hsteps hx
  generalize t.issued = issued at hsteps
  induction hsteps with
  | nil => exact fun _ hp => absurd hp not_mem_nil
  | cons hstep _ ih =>
    rw [forall_mem_cons] at hx ⊢
    exact ⟨(hstep x).resolve_right (fun hin => hx.1 hin.1), ih hx.2⟩

omit [LinearOrder α] in
theorem sum_positions_eq_zero {l : List (α → Nat)} {x : α} (h : ∀ p ∈ l, p x = 0) :
    (l.map (· x)).sum = 0 := by
  rw [sum_eq_zero_iff]
  intro n hn
  obtain ⟨p, hp, rfl⟩ := mem_map.mp hn
  exact h p hp

end step

variable {e : Env α ε κ} {t : Tracked α ε κ} {sys : System α ε κ}

variable {c : SchedulerConfig} {mo : ModelOutput α}

theorem Exact.of_objs (h : t.Exact c) (hcons : sys.Conserves) (hin : sys.inFlight = t.sys.inFlight)
    (hobjs : ∀ x, sys.sched.Live x → (sys.sched.objs x).Agrees c (t.awaited x) (t.outdated x)) :
    ({ t with sys := sys } : Tracked α ε κ).Exact c where
  conserves := hcons
  steps := by
    rw [hin]
    exact h.steps
  stale_le := h.stale_le
  agrees := hobjs

section
variable (hmodest : e.enc.Modest) (h : t.Exact e.toSchedulerConfig)
include hmodest h

theorem Exact.added {args : Request.Args α} {connector : Option (α → Bool)} {now : ℚ}
    (hplain : args.resumable = false)
    (hfresh : ∀ out ∈ t.sys.inFlight, args.requestId ∉ out.numScheduledTokens.map Prod.fst)
    (hstep : t.sys.step e (.addRequest args connector now) = .ok sys) (x : α)
    (hlive : sys.sched.Live x) :
    (sys.sched.objs x).Agrees e.toSchedulerConfig (t.awaited x) (t.outdated x) := by
  have hnew : (new args).resumable = false ∧ (new args).requestId = args.requestId := by
    unfold new updateBlockHashes
    split <;> exact ⟨hplain, rfl⟩
  cases System.step_effect hmodest h.conserves hstep hlive with
  | added _ _ _ hin hadds =>
    cases hadds with
    | same hl hobj => rw [hobj]; exact h.agrees x hl
    | fresh hx hout hobj =>
      rw [if_neg (by simp [hnew.1])] at hobj
      have hidle : ∀ p ∈ t.issued, p x = 0 := h.idle (by rw [hx, hnew.2]; exact hfresh)
      have hawaited : t.awaited x = 0 :=
        sum_positions_eq_zero (fun p hp => hidle p (mem_of_mem_drop hp))
      have houtdated : t.outdated x = 0 :=
        sum_positions_eq_zero (fun p hp => hidle p (mem_of_mem_take hp))
      rw [hobj, hawaited, houtdated]
      exact agrees_new hplain
    | queued hx hl q hstatus hobj =>
      have ha := h.agrees x hl
      rw [hobj]
      exact ⟨ha.plain, ha.placeholders, ha.discards, ha.computed, ha.running⟩
    | resumed hx hl update hstatus hupdate hobj =>
      unfold toStreamingUpdate at hupdate
      rw [if_neg (by simp [hnew.1])] at hupdate
      cases hupdate

theorem Exact.scheduled {inp : ScheduleInput α} (hcons : sys.Conserves)
    (hstep : t.sys.step e (.schedule inp) = .ok sys) :
    (t.track sys (.schedule inp)).Exact e.toSchedulerConfig := by
  obtain ⟨out, hin⟩ : ∃ out, sys.inFlight = t.sys.inFlight ++ [out] := by
    simp only [System.step, seq_ok_iff] at hstep
    obtain ⟨⟨s, k, out⟩, -, hstep⟩ := hstep
    cases hstep
    exact ⟨out, rfl⟩
  have hissued : (t.track sys (.schedule inp)).issued = t.issued ++ [sys.sched.positions out] := by
    simp [track, hin]
  have hawaited (x : α) : (t.track sys (.schedule inp)).awaited x =
      t.awaited x + sys.sched.positions out x := by
    unfold awaited
    rw [hissued]
    change (((t.issued ++ [_]).drop (t.stale x)).map _).sum = _
    rw [drop_append_of_le_length (h.stale_le x)]
    simp
  have houtdated (x : α) : (t.track sys (.schedule inp)).outdated x = t.outdated x := by
    unfold outdated
    rw [hissued]
    change (((t.issued ++ [_]).take (t.stale x)).map _).sum = _
    rw [take_append_of_le_length (h.stale_le x)]
  refine ⟨hcons, ?_, fun x => ?_, fun x hlive => ?_⟩
  · change Forall₂ OfStep sys.inFlight _
    rw [hin, hissued]
    refine rel_append h.steps (.cons (fun x => ?_) .nil)
    unfold positions
    split_ifs with hx
    · exact .inr ⟨hx.1, rfl⟩
    · exact .inl rfl
  · rw [hissued, length_append]
    exact (h.stale_le x).trans (Nat.le_add_right _ _)
  · have hlive' : sys.sched.Live x := hlive
    rw [hawaited, houtdated]
    change (sys.sched.objs x).Agrees _ _ _
    cases System.step_effect hmodest h.conserves hstep hlive' with
    | scheduled _ out' hin' hl htreats =>
      obtain rfl : out = out' := by
        have := hin.symm.trans hin'
        simpa using this
      have ha := h.agrees x hl
      have hout (hkey : get? out.numScheduledTokens x = none) :
          sys.sched.positions out x = 0 :=
        if_neg (fun hx => get?_eq_none.mp hkey hx.1)
      have hmem {n : Int} (hkey : get? out.numScheduledTokens x = some n) :
          x ∈ out.numScheduledTokens.map Prod.fst := by
        by_contra hx
        cases hkey.symm.trans (get?_eq_none.mpr hx)
      have hbase {base : Request α} (hb : base = t.sys.sched.objs x ∨
          (t.sys.sched.objs x).Promoted base) :
          base.Agrees e.toSchedulerConfig (t.awaited x) (t.outdated x) := by
        rcases hb with rfl | hb
        · exact ha
        · exact ha.promoted hb
      cases htreats with
      | untouched hobj hkey => rw [hobj, hout hkey]; exact ha
      | ran n hrun hn hle hkey hspec hobj =>
        have hstatus := ((Tally.acts h.conserves.sched x).mp hrun).2
        rw [hobj]
        refine ha.ran hstatus hle ?_
        unfold positions draftsOf
        rw [hspec, hobj]
        simp [hmem hkey]
      | preempted hrun hobj hkey => rw [hobj, hout hkey]; exact ha.preempt
      | promoted hready hkey => rw [hout hkey]; exact ha.promoted hready
      | loading base m hb hidle hzero hm hobj hkey =>
        rw [hobj, hout hkey]
        exact (hbase hb).loading hm.2
      | started base m n hb hstatus hm hn hkey hspec hobj =>
        rw [hobj]
        refine (hbase hb).started hn.2 ?_
        unfold positions draftsOf
        rw [hspec, hobj]
        simp [hmem hkey]

theorem Exact.output_agrees (hserved : t.Served mo)
    (hstep : t.sys.step e (.updateFromOutput mo) = .ok sys) {x : α} (hlive : sys.sched.Live x) :
    (sys.sched.objs x).Agrees e.toSchedulerConfig
      ((t.track sys (.updateFromOutput mo)).awaited x)
      ((t.track sys (.updateFromOutput mo)).outdated x) ∧
    (e.asyncScheduling = true → 0 < t.stale x →
      (sys.sched.objs x).numComputedTokens = (t.sys.sched.objs x).numComputedTokens ∧
      (sys.sched.objs x).numOutputPlaceholders = (t.sys.sched.objs x).numOutputPlaceholders) := by
  have hsteps := h.steps
  have hstale := h.stale_le x
  have hawaited : (t.track sys (.updateFromOutput mo)).awaited x =
      ((t.issued.tail.drop (t.stale x - 1)).map (· x)).sum := rfl
  have houtdated : (t.track sys (.updateFromOutput mo)).outdated x =
      ((t.issued.tail.take (t.stale x - 1)).map (· x)).sum := rfl
  cases System.step_effect hmodest h.conserves hstep hlive with
  | noOutput _ hin hsame =>
    subst hsame
    rw [hin] at hsteps
    have hnil : t.issued = [] := forall₂_nil_left_iff.mp hsteps
    have h0 : t.stale x = 0 := by simpa [hnil] using hstale
    have ha := h.agrees x hlive
    unfold awaited outdated at ha
    rw [hawaited, houtdated]
    rw [hnil, h0] at ha ⊢
    exact ⟨ha, fun _ hlt => absurd hlt (by omega)⟩
  | output _ out failed m hin hl hm hquiet hgets =>
    obtain ⟨rfl, rfl⟩ := hquiet hserved.loaded
    rw [hin] at hsteps
    obtain ⟨p, rest, hp, -, hissued⟩ := forall₂_cons_left_iff.mp hsteps
    have ha := h.agrees x hl
    -- without a step for `x` nothing changes
    by_cases hx : x ∈ out.numScheduledTokens.map Prod.fst
    · rw [if_pos ⟨hx, not_mem_nil⟩] at hgets
      obtain ⟨mid, kept, stats, htakes, hobj⟩ := gets_unstopped ha.plain hgets hlive.2
      have hret := hserved.returned out (by rw [hin]; rfl) p (by rw [hissued]; rfl) x hx hl
      have hpos : p x = 0 ∨ p x = 1 + (draftsOf out x).length := (hp x).imp_right (fun hp => hp.2)
      have hmid {a o : Nat} (hmid : mid.Agrees e.toSchedulerConfig a o) :
          (sys.sched.objs x).Agrees e.toSchedulerConfig a o := by
        rw [hobj]
        exact ⟨hmid.plain, hmid.placeholders, hmid.discards, hmid.computed, hmid.running⟩
      rw [hawaited, houtdated, hissued]
      unfold awaited outdated at ha
      rw [hissued] at ha
      rcases hk : t.stale x with _ | k
      · rw [hk] at ha
        exact ⟨hmid (ha.takes hpos hret htakes), fun _ hlt => absurd hlt (by omega)⟩
      rw [hk] at ha
      obtain ⟨hag, hsame⟩ := Request.Agrees.takes_outdated ha hpos hret htakes
      refine ⟨hmid hag, fun hasync _ => ?_⟩
      rw [hobj]
      exact hsame hasync
    · rw [if_neg (fun hin => hx hin.1)] at hgets
      have hzero : p x = 0 := (hp x).resolve_right (fun hin => hx hin.1)
      have hobj : sys.sched.objs x = t.sys.sched.objs x := hgets
      rw [hobj, hawaited, houtdated, hissued]
      unfold awaited outdated at ha
      rw [hissued] at ha
      rcases hk : t.stale x with _ | k
      · simpa [hk, hzero] using ha
      · simpa [hk, hzero] using ha

theorem Exact.output (hserved : t.Served mo) (hcons : sys.Conserves)
    (hstep : t.sys.step e (.updateFromOutput mo) = .ok sys) :
    (t.track sys (.updateFromOutput mo)).Exact e.toSchedulerConfig := by
  refine ⟨hcons, ?_, fun x => ?_, fun x hlive => (h.output_agrees hmodest hserved hstep hlive).1⟩
  · change Forall₂ OfStep sys.inFlight t.issued.tail
    have hin : sys.inFlight = t.sys.inFlight.tail := by
      cases hfl : t.sys.inFlight with
      | nil =>
        simp only [System.step, hfl] at hstep
        cases hstep
        exact hfl
      | cons out rest =>
        simp only [System.step, hfl, seq_ok_iff] at hstep
        obtain ⟨_, -, hstep⟩ := hstep
        cases hstep
        rfl
    rw [hin]
    have hsteps := h.steps
    generalize t.sys.inFlight = outs at hsteps
    generalize t.issued = issued at hsteps
    cases hsteps with
    | nil => exact .nil
    | cons _ hrest => exact hrest
  · change t.stale x - 1 ≤ t.issued.tail.length
    have := h.stale_le x
    rw [length_tail]
    omega

theorem Exact.reset
    (hone : e.asyncScheduling = true → ∀ x ∈ t.sys.sched.running, (t.issued.map (· x)).sum = 1)
    (hcons : sys.Conserves) (hstep : t.sys.step e (.resetPrefixCache true) = .ok sys) :
    (t.track sys (.resetPrefixCache true)).Exact e.toSchedulerConfig := by
  have hin : sys.inFlight = t.sys.inFlight := by
    simp only [System.step, seq_ok_iff] at hstep
    obtain ⟨_, -, hstep⟩ := hstep
    cases hstep
    rfl
  refine ⟨hcons, ?_, fun x => ?_, fun x hlive => ?_⟩
  · change Forall₂ OfStep sys.inFlight t.issued
    rw [hin]
    exact h.steps
  · change (if x ∈ t.sys.sched.running then t.issued.length else t.stale x) ≤ t.issued.length
    split
    · exact le_rfl
    · exact h.stale_le x
  · have hlive' : sys.sched.Live x := hlive
    have hawaited : (t.track sys (.resetPrefixCache true)).awaited x = ((t.issued.drop
        (if x ∈ t.sys.sched.running then t.issued.length else t.stale x)).map (· x)).sum := rfl
    have houtdated : (t.track sys (.resetPrefixCache true)).outdated x = ((t.issued.take
        (if x ∈ t.sys.sched.running then t.issued.length else t.stale x)).map (· x)).sum := rfl
    rw [hawaited, houtdated]
    change (sys.sched.objs x).Agrees _ _ _
    cases System.step_effect hmodest h.conserves hstep hlive' with
    | reset _ _ hl hobj =>
      have ha := h.agrees x hl
      by_cases hrun : x ∈ t.sys.sched.running
      · rw [if_pos ⟨rfl, hrun⟩] at hobj
        rw [if_pos hrun, hobj, take_length]
        refine ⟨ha.plain, ?_, fun hasync => hone hasync x hrun, ?_, fun hrunning => ?_⟩
        · change (0 : Int) = _
          simp
        · change (0 : Int) ≤ (t.sys.sched.objs x).numTokens + _
          unfold numTokens
          omega
        · cases hrunning
      · rw [if_neg (fun hr => hrun hr.2)] at hobj
        rw [if_neg hrun, hobj]
        exact ha

theorem Exact.step {t' : Tracked α ε κ} {ev : Event α} (hcond : t.Orderly e.toSchedulerConfig ev)
    (hstep : t.step e ev = .ok t') : t'.Exact e.toSchedulerConfig := by
  simp only [Tracked.step, seq_ok_iff] at hstep
  obtain ⟨sys, hsys, hstep⟩ := hstep
  cases hstep
  have hfound : t.sys.StopsFound e.toSchedulerConfig ev := by
    cases ev with
    | updateFromOutput mo => exact hcond.2
    | _ => trivial
  have hcons := h.conserves.step hfound hsys
  -- the calls that leave the counters of a live request alone
  have hsame (hin : sys.inFlight = t.sys.inFlight) (hobj : ∀ x, sys.sched.Live x →
      t.sys.sched.Live x ∧ ∃ spec, sys.sched.objs x =
        { t.sys.sched.objs x with specTokenIds := spec }) :
      ({ t with sys := sys } : Tracked α ε κ).Exact e.toSchedulerConfig := by
    refine h.of_objs hcons hin (fun x hlive => ?_)
    obtain ⟨hl, spec, hx⟩ := hobj x hlive
    have ha := h.agrees x hl
    rw [hx]
    exact ⟨ha.plain, ha.placeholders, ha.discards, ha.computed, ha.running⟩
  cases ev with
  | addRequest args connector now =>
    refine h.of_objs hcons ?_ (h.added hmodest hcond.1 hcond.2 hsys)
    simp only [System.step, seq_ok_iff] at hsys
    obtain ⟨_, -, hsys⟩ := hsys
    cases hsys
    rfl
  | schedule inp => exact h.scheduled hmodest hcons hsys
  | updateFromOutput mo => exact h.output hmodest hcond.1 hcons hsys
  | updateDraftTokenIds drafts =>
    refine hsame ?_ (fun x hlive => ?_)
    · cases hsys
      rfl
    · cases System.step_effect hmodest h.conserves hsys hlive with
      | drafted _ spec _ hl hobj => exact ⟨hl, spec, hobj⟩
  | finishRequests ids status connector now =>
    refine hsame ?_ (fun x hlive => ?_)
    · simp only [System.step, seq_ok_iff] at hsys
      obtain ⟨_, -, hsys⟩ := hsys
      cases hsys
      rfl
    · cases System.step_effect hmodest h.conserves hsys hlive with
      | spared _ _ _ _ _ hl hobj => exact ⟨hl, _, hobj⟩
  | resetPrefixCache flag =>
    cases flag with
    | true => exact h.reset hmodest hcond hcons hsys
    | false =>
      refine hsame ?_ (fun x hlive => ?_)
      · simp only [System.step, seq_ok_iff] at hsys
        obtain ⟨_, -, hsys⟩ := hsys
        cases hsys
        rfl
      cases System.step_effect hmodest h.conserves hsys hlive with
      | reset _ _ hl hobj =>
        rw [if_neg (fun hr => Bool.false_ne_true hr.1)] at hobj
        exact ⟨hl, _, hobj⟩
  | setPauseState state =>
    refine hsame ?_ (fun x hlive => ?_)
    · cases hsys
      rfl
    · cases System.step_effect hmodest h.conserves hsys hlive with
      | paused _ _ hl hobj => exact ⟨hl, _, hobj⟩

end

theorem exact_init (c : SchedulerConfig) (kv : KVCacheManager α) (encoder : ε)
    (objs : α → Request α) (k : κ) : (init ⟨.init kv encoder objs, k, []⟩).Exact c where
  conserves := System.conserves_init kv encoder objs k
  steps := .nil
  stale_le _ := le_rfl
  agrees _ hlive := absurd hlive.1 not_mem_nil

/-- In every orderly run the placeholders of an unfinished request are the output positions in
flight since its last forced preemption, they cover what is computed beyond its tokens, and an
output from before the preemption changes none of its counters. -/
theorem run_placeholders_exact {e : Env α ε κ} (henc : e.enc.Embedded)
    (hasync : e.asyncScheduling = true) (kv : KVCacheManager α) (encoder : ε)
    (objs : α → Request α) (k : κ) {evs : List (Event α)} {t : Tracked α ε κ}
    (hcond : Trace.Meets (step e) (Orderly e.toSchedulerConfig)
      (init ⟨.init kv encoder objs, k, []⟩) evs)
    (hrun : Trace.run (step e) (init ⟨.init kv encoder objs, k, []⟩) evs = .ok t) :
    (∀ x, t.sys.sched.Live x → let req := t.sys.sched.objs x
      0 ≤ req.numOutputPlaceholders ∧ req.numOutputPlaceholders = t.awaited x ∧
        req.numComputedTokens - req.numOutputPlaceholders ≤ req.numTokens) ∧
    ∀ mo t', t.Orderly e.toSchedulerConfig (.updateFromOutput mo) →
      t.step e (.updateFromOutput mo) = .ok t' → ∀ x, t'.sys.sched.Live x → 0 < t.stale x →
        (t'.sys.sched.objs x).numComputedTokens = (t.sys.sched.objs x).numComputedTokens ∧
        (t'.sys.sched.objs x).numOutputPlaceholders =
          (t.sys.sched.objs x).numOutputPlaceholders := by
  have hexact : t.Exact e.toSchedulerConfig :=
    Trace.run_induct (fun _ _ _ h => h.step henc.modest) (exact_init _ kv encoder objs k) hcond hrun
  refine ⟨fun x hlive => ?_, fun mo t' hnext hstep x hlive hstale => ?_⟩
  · have ha := hexact.agrees x hlive
    have hpl := ha.placeholders
    rw [if_pos hasync] at hpl
    have hcomputed := ha.computed
    omega
  · simp only [step, seq_ok_iff] at hstep
    obtain ⟨sys, hsys, hstep⟩ := hstep
    cases hstep
    exact (hexact.output_agrees henc.modest hnext.1 hsys hlive).2 hasync hstale

/-! One request that is preempted by force with one or with two steps in flight. -/

def asyncConfig : SchedulerConfig := { SchedulerConfig.text 2 8 with asyncScheduling := true }

def nineBlocks : Tracked Nat Unit Unit := .init (.text (.text 2 9 Nat.two_pos false))

def token (n : Int) : Event Nat := .updateFromOutput (.text (fun _ => [n]))

/-- `n` steps are in flight at the preemption; the request is resumed before their outputs
arrive. -/
def preemptedBehind (n : Nat) : List (Event Nat) :=
  [.addRequest (.text 0 0 [1, 2, 3] 10) none 0] ++ replicate n (.schedule .text) ++
    [.resetPrefixCache true, .schedule .text] ++ replicate n (token 7)

/-- The second output from before the preemption is taken for one of the resumed request: no
placeholder is left, although a step is in flight. -/
theorem outdated_output_taken :
    ∃ t, Trace.run (step (.text asyncConfig)) nineBlocks (preemptedBehind 2) = .ok t ∧
      t.sys.sched.Live 0 ∧ (t.sys.sched.objs 0).numOutputPlaceholders = 0 ∧ t.awaited 0 = 1 := by
  have hval : (Trace.run (step (.text asyncConfig)) nineBlocks
      (preemptedBehind 2)).toOption.any (fun t =>
        decide ((0 ∈ t.sys.sched.requests ∧ (t.sys.sched.objs 0).isFinished = false) ∧
          (t.sys.sched.objs 0).numOutputPlaceholders = 0 ∧ t.awaited 0 = 1)) = true := by
    decide +kernel
  obtain ⟨t, hrun, hval⟩ := ok_of_any hval
  obtain ⟨hlive, hpl, hawaited⟩ := of_decide_eq_true hval
  exact ⟨t, hrun, hlive, hpl, hawaited⟩

/-- A sufficient test: every request of a step runs and returns one token for one position. -/
def singly (t : Tracked Nat Unit Unit) : Event Nat → Bool
  | .addRequest args _ _ => decide (args.resumable = false ∧ t.sys.inFlight.length = 0)
  | .updateFromOutput mo => decide (mo.invalidBlockIds = []) &&
      t.sys.inFlight.head?.all (fun out => out.numScheduledTokens.all (fun x =>
        decide ((t.sys.sched.objs x.1).status = .running ∧
          (mo.sampledTokenIds x.1).length = 1 ∧ ∀ p ∈ t.issued.head?.toList, p x.1 = 1)))
  | .resetPrefixCache true => decide (∀ x ∈ t.sys.sched.running, (t.issued.map (· x)).sum = 1)
  | _ => true

theorem orderly_of_singly (t : Tracked Nat Unit Unit) (ev : Event Nat) (h : singly t ev = true) :
    t.Orderly c ev := by
  cases ev with
  | addRequest args connector now =>
    obtain ⟨hplain, hnone⟩ := of_decide_eq_true h
    rw [length_eq_zero_iff] at hnone
    exact ⟨hplain, fun out hout => absurd hout (by simp [hnone])⟩
  | updateFromOutput mo =>
    obtain ⟨hloaded, hall⟩ := Bool.and_eq_true_iff.mp h
    have hx {out : SchedulerOutput Nat} (hout : out ∈ t.sys.inFlight.head?) {x : Nat}
        (hx : x ∈ out.numScheduledTokens.map Prod.fst) :
        (t.sys.sched.objs x).status = .running ∧ (mo.sampledTokenIds x).length = 1 ∧
          ∀ p ∈ t.issued.head?.toList, p x = 1 := by
      rw [hout] at hall
      obtain ⟨y, hy, rfl⟩ := mem_map.mp hx
      exact of_decide_eq_true (all_eq_true.mp hall y hy)
    refine ⟨⟨of_decide_eq_true hloaded, fun out hout p hp x hin _ => ?_⟩,
      fun out hout s1 failed _ r hr _ _ hidle => absurd (hx hout hr).1 hidle⟩
    obtain ⟨-, hone, hpos⟩ := hx hout hin
    have hp := hpos p (Option.mem_toList.mpr hp)
    refine ⟨by omega, fun _ => .inl (fun hnil => ?_)⟩
    simp [hnil] at hone
  | resetPrefixCache flag =>
    cases flag with
    | true => exact fun _ => of_decide_eq_true h
    | false => trivial
  | _ => trivial

/-- With one step in flight its output is discarded, and the placeholder of the resumed request
stays until the output of the new step arrives. -/
theorem run_placeholders_exact_behind_one :
    ∃ t, Trace.run (step (.text asyncConfig)) nineBlocks (preemptedBehind 1) = .ok t ∧
      (t.sys.sched.objs 0).numOutputPlaceholders = t.awaited 0 ∧ t.awaited 0 = 1 := by
  have hval : (Trace.run (step (.text asyncConfig)) nineBlocks
      (preemptedBehind 1)).toOption.any (fun t =>
        decide ((0 ∈ t.sys.sched.requests ∧ (t.sys.sched.objs 0).isFinished = false) ∧
          t.awaited 0 = 1)) = true := by
    decide +kernel
  have htest : Trace.passes (step (.text asyncConfig)) singly nineBlocks
      (preemptedBehind 1) = true := by
    decide +kernel
  obtain ⟨t, hrun, hval⟩ := ok_of_any hval
  obtain ⟨hlive, hawaited⟩ := of_decide_eq_true hval
  obtain ⟨hall, -⟩ := run_placeholders_exact .text rfl _ _ _ _
    (Trace.meets_of_passes orderly_of_singly htest) hrun
  exact ⟨t, hrun, (hall 0 hlive).2.1, hawaited⟩

end Tracked
end TailBlend
