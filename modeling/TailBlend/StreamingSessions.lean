import TailBlend.RequestEffects

/-! The tokens of streaming-input sessions. -/
namespace TailBlend
open List Request
variable {α ε κ : Type} [LinearOrder α]

theorem pySlice_of_le {β : Type*} {l : List β} {a b : Nat} (hb : b ≤ l.length) (ha : a ≤ l.length) :
    pySlice l a b = (l.take b).drop a := by
  unfold pySlice pyBound
  rw [if_neg (by omega), if_neg (by omega), Int.toNat_natCast, Int.toNat_natCast, min_eq_left hb,
    min_eq_left ha]

namespace Request
variable {c : SchedulerConfig} {req req' : Request α}

/-- The session goes on with the next chunk: what is kept is the prompt and the output without
the last sampled token. `sampled` is the output that stopped the session. -/
structure Resumes (req : Request α) (sampled chunk : List Int) (req' : Request α) : Prop where
  prompt : req'.promptTokenIds =
    some (req.promptTokenIds.getD [] ++ (req.outputTokenIds ++ sampled).dropLast ++ chunk)
  all : req'.allTokenIds =
    req.promptTokenIds.getD [] ++ (req.outputTokenIds ++ sampled).dropLast ++ chunk
  output : req'.outputTokenIds = []

/-- A generation request without drafts whose tokens are its prompt and its output. -/
structure Coherent (req : Request α) : Prop where
  generation : req.pooling = false
  prompt : ∃ ids, req.promptTokenIds = some ids ∧ req.allTokenIds = ids ++ req.outputTokenIds ∧
    req.numPromptTokens = ids.length
  noDrafts : req.specTokenIds = []
  noPlaceholders : req.numOutputPlaceholders = 0

/-- All tokens are computed but the last one, which was sampled. -/
structure LastSampled (req : Request α) : Prop where
  computed : req.numComputedTokens + 1 = req.numTokens
  sampled : req.outputTokenIds ≠ []

/-- A session; one that waits for input has its last token sampled. -/
structure Session (req : Request α) : Prop extends Coherent req where
  computed : req.numComputedTokens ≤ req.numTokens
  idle : req.status = .waitingForStreamingReq → req.LastSampled

section
omit [LinearOrder α]

theorem Session.of_status (h : req.Coherent) (hcomputed : req.numComputedTokens ≤ req.numTokens)
    (hstatus : req.status ≠ .waitingForStreamingReq) : req.Session :=
  { h with computed := hcomputed, idle := fun hs => absurd hs hstatus }

theorem Coherent.updateAsSession (h : req.Coherent) (hlast : req.LastSampled)
    (update : StreamingUpdate) :
    (req.updateAsSession update).Session ∧
      req.Resumes [] update.promptTokenIds (req.updateAsSession update) := by
  obtain ⟨ids, hprompt, hall, hnum⟩ := h.prompt
  have hlen : req.allTokenIds.length = ids.length + req.outputTokenIds.length := by
    rw [hall, length_append]
  have hpos := length_pos_iff.mpr hlast.sampled
  have hcomputed :
      req.numComputedTokens = (ids.length + (req.outputTokenIds.length - 1) : Nat) := by
    have := hlast.computed
    unfold numTokens at this
    omega
  have hkept : pySlice req.allTokenIds req.numPromptTokens req.numComputedTokens =
      req.outputTokenIds.dropLast := by
    rw [hnum, hcomputed, pySlice_of_le (by omega) (by omega), hall, take_length_add_append,
      drop_left, dropLast_eq_take]
  have htake : pySlice req.allTokenIds 0 req.numComputedTokens =
      ids ++ req.outputTokenIds.dropLast := by
    have hzero : (0 : Int) = (0 : Nat) := rfl
    rw [hzero, hcomputed, pySlice_of_le (by omega) (by omega), hall, take_length_add_append,
      drop_zero, dropLast_eq_take]
  have hext : ∃ mm, req.extendSession update = { req with
      outputTokenIds := []
      promptTokenIds := some (ids ++ req.outputTokenIds.dropLast ++ update.promptTokenIds)
      mmFeatures := mm
      allTokenIds := ids ++ req.outputTokenIds.dropLast ++ update.promptTokenIds } := by
    unfold extendSession
    rw [hkept, htake, hprompt]
    exact ⟨_, rfl⟩
  obtain ⟨mm, hext⟩ := hext
  have hupd : ∃ hashes, (req.extendSession update).updateBlockHashes =
      { req.extendSession update with blockHashes := hashes } := by
    unfold updateBlockHashes
    split <;> exact ⟨_, rfl⟩
  obtain ⟨hashes, hupd⟩ := hupd
  unfold Request.updateAsSession
  rw [hupd, hext]
  refine ⟨.of_status ⟨h.generation, ⟨_, rfl, (append_nil _).symm, rfl⟩, h.noDrafts,
    h.noPlaceholders⟩ ?_ nofun, ?_, ?_, rfl⟩
  · unfold numTokens
    dsimp only
    rw [length_append, length_append, length_dropLast]
    omega
  · rw [hprompt, append_nil]
    rfl
  · rw [hprompt, append_nil]
    rfl

theorem updateAsSession_resumable (req : Request α) (update : StreamingUpdate) :
    (req.updateAsSession update).resumable = req.resumable := by
  unfold updateAsSession updateBlockHashes
  split <;> rfl

/-- The first chunk of a session: tokens to generate from. -/
def Args.Opens (args : Args α) : Prop :=
  args.prompt.tokenIds.isSome = true ∧ match args.task with
    | .sampling _ _ _ => True
    | .pooling => False

theorem session_new {args : Args α} (h : args.Opens) (q : Option (List (Option StreamingUpdate))) :
    ({ new args with streamingQueue := q } : Request α).Session := by
  have heq : ∃ hashes, new args = { unhashed args with blockHashes := hashes } := by
    unfold new updateBlockHashes
    split <;> exact ⟨_, rfl⟩
  obtain ⟨hashes, heq⟩ := heq
  obtain ⟨hsome, htask⟩ := h
  obtain ⟨ids, hids⟩ := Option.isSome_iff_exists.mp hsome
  have hlen : args.prompt.length = ids.length := by
    cases hp : args.prompt with
    | tokens ids' =>
      rw [hp] at hids
      exact congrArg length (Option.some.inj hids)
    | embeds rows =>
      rw [hp] at hids
      cases hids
    | mixed ids' rows hrows =>
      rw [hp] at hids
      exact congrArg length (Option.some.inj hids)
  have hall : (unhashed args).allTokenIds = ids := by
    change args.prompt.tokenIds.getD _ = ids
    rw [hids]
    rfl
  have hgen : (unhashed args).pooling = false := by
    unfold unhashed
    cases hk : args.task with
    | sampling => rfl
    | pooling =>
      rw [hk] at htask
      exact htask.elim
  have hstatus : (unhashed args).status ≠ .waitingForStreamingReq := by
    unfold unhashed
    dsimp only
    split <;> split <;> nofun
  rw [heq]
  refine .of_status ⟨hgen, ⟨ids, hids, hall.trans (append_nil _).symm, ?_⟩, rfl, rfl⟩ ?_
    hstatus
  · exact congrArg Nat.cast hlen
  · change (0 : Int) ≤ ((unhashed args).allTokenIds.length : Int)
    omega

/-! Scheduling. -/

theorem advance_sync (hsync : c.asyncScheduling = false) (n : Int) (d : Nat) (req : Request α) :
    ∃ chunk, Scheduler.advance c n d req = { req with
      numComputedTokens := req.numComputedTokens + n, isPrefillChunk := chunk } := by
  unfold Scheduler.advance
  rw [if_neg (by simp [hsync])]
  exact ⟨_, rfl⟩

theorem Session.promoted (h : req.Session) (hready : req.Promoted req') : req'.Session := by
  obtain ⟨-, status, computed, rfl, hstatus, hcount⟩ := hready
  have hle := h.computed
  refine .of_status ⟨h.generation, h.prompt, h.noDrafts, h.noPlaceholders⟩ ?_ ?_
  · change computed ≤ req.numTokens
    omega
  · rcases hstatus with rfl | rfl <;> nofun

end

theorem Session.scheduled {s s' : Scheduler α ε} {out : SchedulerOutput α} {x : α}
    (hsync : c.asyncScheduling = false) (hc : s.Conserved []) (h : (s.objs x).Session)
    (htreats : Scheduler.Treats c s s' out x) : (s'.objs x).Session := by
  have hbase {base : Request α} (hb : base = s.objs x ∨ (s.objs x).Promoted base) :
      base.Session := by
    rcases hb with rfl | hb
    · exact h
    · exact h.promoted hb
  cases htreats with
  | untouched hobj => exact hobj ▸ h
  | ran n hrun hn hle hkey hspec hobj =>
    have hstatus := ((Tally.acts hc x).mp hrun).2
    obtain ⟨chunk, hadv⟩ := advance_sync hsync n
      (RunningPhase.scheduledDrafts (s.objs x) n).length { s.objs x with specTokenIds := [] }
    rw [hobj, hadv]
    refine .of_status ⟨h.generation, h.prompt, rfl, h.noPlaceholders⟩ ?_ ?_
    · have hcomputed := h.computed
      have hwith : (s.objs x).numTokensWithSpec = (s.objs x).numTokens := by
        unfold numTokensWithSpec numTokens
        rw [h.noDrafts, length_nil, Nat.cast_zero, add_zero]
      rw [h.noPlaceholders] at hle
      change (s.objs x).numComputedTokens + n ≤ (s.objs x).numTokens
      omega
    · rw [hstatus]
      nofun
  | preempted hrun hobj =>
    rw [hobj]
    refine .of_status ⟨h.generation, h.prompt, rfl, h.noPlaceholders⟩ ?_ nofun
    change (0 : Int) ≤ (s.objs x).numTokens
    unfold numTokens
    omega
  | promoted hready => exact h.promoted hready
  | loading base m hb hidle hzero hm hobj =>
    have hb := hbase hb
    rw [hobj]
    exact .of_status ⟨hb.generation, hb.prompt, hb.noDrafts, hb.noPlaceholders⟩ hm.2 nofun
  | started base m n hb hstatus hm hn hkey hspec hobj =>
    have hb := hbase hb
    obtain ⟨chunk, hadv⟩ := advance_sync hsync n 0
      { base with status := .running, numComputedTokens := m }
    rw [hobj, hadv]
    exact .of_status ⟨hb.generation, hb.prompt, hb.noDrafts, hb.noPlaceholders⟩ hn.2 nofun

/-! The output of a step. -/

section
omit [LinearOrder α]

theorem updateWithOutput_single {L : Int} {now : ℚ} {token : Int} {kept : List Int} {stopped : Bool}
    (h : req.updateWithOutput L now [token] = .ok (req', kept, stopped)) : kept = [token] := by
  simp only [updateWithOutput, seq_ok_iff] at h
  obtain ⟨stop, -, h⟩ := h
  cases stop with
  | some status => exact (Prod.mk.inj (Prod.mk.inj (Except.ok.inj h)).2).1.symm
  | none =>
    simp only [seq_ok_iff] at h
    obtain ⟨⟨req1, kept1, stopped₁⟩, hrest, h⟩ := h
    obtain ⟨-, hret⟩ := Prod.mk.inj (Except.ok.inj hrest)
    obtain ⟨rfl, -⟩ := Prod.mk.inj hret
    exact (Prod.mk.inj (Prod.mk.inj (Except.ok.inj h)).2).1.symm

theorem Coherent.sampled {L : Int} {now : ℚ} {token : Int} {kept : List Int} {stopped : Bool}
    (h : req.Coherent) (hall : req.numComputedTokens = req.numTokens)
    (hout : req.updateWithOutput L now [token] = .ok (req', kept, stopped)) :
    req'.Coherent ∧ req'.LastSampled ∧ req'.streamingQueue = req.streamingQueue ∧
      req'.promptTokenIds = req.promptTokenIds ∧
      req'.outputTokenIds = req.outputTokenIds ++ [token] ∧
      (stopped = false → req'.status = req.status) := by
  obtain rfl := updateWithOutput_single hout
  obtain ⟨happ, hgo, -⟩ := updateWithOutput_appends hout
  have hnum := happ.numTokens
  obtain ⟨prob, time, hashes, heq⟩ := happ.eq
  obtain ⟨ids, hprompt, htokens, hlen⟩ := h.prompt
  have hcomputed : req'.numComputedTokens = req.numComputedTokens := by rw [heq]
  have hstatus (hs : stopped = false) : req'.status = req.status := (hgo hs).2
  refine ⟨?_, ⟨by rw [hcomputed, hall, hnum]; rfl, ?_⟩, ?_, ?_, ?_, hstatus⟩
  · rw [heq]
    refine ⟨h.generation, ⟨ids, hprompt, ?_, hlen⟩, h.noDrafts, h.noPlaceholders⟩
    rw [htokens, append_assoc]
  · rw [heq]
    exact append_ne_nil_of_right_ne_nil _ (cons_ne_nil _ _)
  all_goals rw [heq]

theorem queue_ne_rest {first : Option StreamingUpdate} {rest : List (Option StreamingUpdate)}
    (hq : req.streamingQueue = some (first :: rest)) : req.streamingQueue ≠ some rest := by
  rw [hq]
  exact fun heq => absurd (congrArg length (Option.some.inj heq)) (by simp)

theorem Session.gets {mo : ModelOutput α} {drafts : List Int} {r : α}
    (hsync : c.asyncScheduling = false) (h : req.Session)
    (hone : mo.sampledTokenIds r ≠ [] → drafts = [] ∧ req.numComputedTokens = req.numTokens ∧
      req.status ≠ .waitingForStreamingReq ∧ (mo.sampledTokenIds r).length = 1)
    (hgets : Scheduler.Gets c mo drafts r req req') (hlive : req'.isFinished = false) :
    req'.Session ∧ ∀ update rest, req.streamingQueue = some (some update :: rest) →
      req'.streamingQueue = some rest →
        req.Resumes (mo.sampledTokenIds r) update.promptTokenIds req' := by
  have hsettled : req.settled drafts (mo.sampledTokenIds r) = req := by
    unfold settled
    rw [if_neg (fun hne => hne.1 (hone hne.2).1)]
  cases hgets with
  | finish hfin => exact absurd (hlive.symm.trans hfin) nofun
  | goOn mid kept stats htakes heq =>
    rw [hsettled] at htakes
    subst heq
    cases htakes with
    | discard _ hasync => exact absurd (hsync.symm.trans hasync) nofun
    | async _ _ _ _ hasync => exact absurd (hsync.symm.trans hasync) nofun
    | nothing =>
      refine ⟨{ h with idle := fun hs => ⟨(h.idle hs).computed, (h.idle hs).sampled⟩ },
        fun update rest hq hq' => absurd hq' (queue_ne_rest hq)⟩
    | sync _ _ _ hne _ hout =>
      obtain ⟨-, hall, hidle, hlen⟩ := hone hne
      obtain ⟨token, htoken⟩ := length_eq_one_iff.mp hlen
      rw [htoken] at hout
      obtain ⟨hcoh, hlast, hq1, -, -, hstatus⟩ := h.toCoherent.sampled hall hout
      have hcomputed := hlast.computed
      refine ⟨.of_status ⟨hcoh.generation, hcoh.prompt, hcoh.noDrafts, hcoh.noPlaceholders⟩
        ?_ ?_, fun update rest hq hq' => absurd (hq1.symm.trans hq') (queue_ne_rest hq)⟩
      · change mid.numComputedTokens ≤ mid.numTokens
        omega
      · rw [hstatus rfl]
        exact hidle
  | stop mid last kept htakes hend heq =>
    rw [hsettled] at htakes
    subst heq
    cases htakes with
    | async _ _ _ _ hasync => exact absurd (hsync.symm.trans hasync) nofun
    | pooled _ hpool => exact absurd (h.generation.symm.trans hpool.1) nofun
    | sync _ _ _ hne _ hout =>
      obtain ⟨-, hall, hidle, hlen⟩ := hone hne
      obtain ⟨token, htoken⟩ := length_eq_one_iff.mp hlen
      rw [htoken] at hout
      obtain ⟨hcoh, hlast, hq1, hprompt, houtput, -⟩ := h.toCoherent.sampled hall hout
      cases hend with
      | finish hfin => exact absurd (hlive.symm.trans hfin) nofun
      | await hres heq =>
        subst heq
        have hcomputed := hlast.computed
        refine ⟨⟨⟨hcoh.generation, hcoh.prompt, hcoh.noDrafts, hcoh.noPlaceholders⟩, ?_,
          fun _ => ⟨hcomputed, hlast.sampled⟩⟩,
          fun update rest hq hq' => absurd (hq1.symm.trans hq') (queue_ne_rest hq)⟩
        change mid.numComputedTokens ≤ mid.numTokens
        omega
      | goOn update rest hres hq heq =>
        have hcoh' : ({ mid with streamingQueue := some rest } : Request α).Coherent :=
          ⟨hcoh.generation, hcoh.prompt, hcoh.noDrafts, hcoh.noPlaceholders⟩
        obtain ⟨hsession, hresumes⟩ := hcoh'.updateAsSession ⟨hlast.computed, hlast.sampled⟩ update
        rw [← heq] at hsession hresumes
        refine ⟨{ hsession with
          idle := fun hs => ⟨(hsession.idle hs).computed, (hsession.idle hs).sampled⟩ }, ?_⟩
        intro update' rest' hq' _
        obtain ⟨rfl, rfl⟩ : update' = update ∧ rest' = rest := by
          have := hq'.symm.trans (hq1.symm.trans hq)
          simpa using this
        have hp := hresumes.prompt
        have ha := hresumes.all
        rw [hprompt, houtput, append_nil] at hp ha
        rw [htoken]
        exact ⟨hp, ha, hresumes.output⟩

end

end Request

/-! Runs. -/

namespace System
variable {e : Env α ε κ} {sys sys' : System α ε κ} {x : α}

/-- The conditions on sessions: they open with tokens to generate from, no drafts are proposed for
them, and a step that samples a token for a session finds it running with all tokens computed. -/
def SessionsServed (c : SchedulerConfig) (sys : System α ε κ) : Event α → Prop
  | .addRequest args _ _ => args.resumable = true → args.Opens
  | .updateFromOutput mo => sys.StopsFound c (.updateFromOutput mo) ∧
      ∀ out ∈ sys.inFlight.head?, ∀ x ∈ out.numScheduledTokens.map Prod.fst, sys.sched.Live x →
        (sys.sched.objs x).resumable = true → mo.sampledTokenIds x ≠ [] →
          (mo.sampledTokenIds x).length = 1 ∧ Scheduler.draftsOf out x = [] ∧
          (sys.sched.objs x).status = .running ∧
          (sys.sched.objs x).numComputedTokens = (sys.sched.objs x).numTokens
  | .updateDraftTokenIds drafts =>
      ∀ d ∈ drafts, (sys.sched.objs d.1).resumable = true → d.2 = []
  | _ => True

/-- The tokens of every session are its prompt and its output. -/
structure SessionsCoherent (sys : System α ε κ) : Prop where
  conserves : sys.Conserves
  sessions : ∀ x, sys.sched.Live x → (sys.sched.objs x).resumable = true →
    (sys.sched.objs x).Session

/-- In this event the session of `x` goes on with `chunk`, after the output `sampled`. -/
def GoesOn (sys sys' : System α ε κ) (x : α) (sampled chunk : List Int) : Event α → Prop
  | .addRequest args _ _ => args.requestId = x ∧ sys.sched.Live x ∧
      (sys.sched.objs x).status = .waitingForStreamingReq ∧ args.resumable = true ∧
      sampled = [] ∧ chunk = args.prompt.tokenIds.getD []
  | .updateFromOutput mo => sampled = mo.sampledTokenIds x ∧ ∃ update rest,
      (sys.sched.objs x).streamingQueue = some (some update :: rest) ∧
      (sys'.sched.objs x).streamingQueue = some rest ∧ chunk = update.promptTokenIds
  | _ => False

theorem SessionsCoherent.added (hmodest : e.enc.Modest) (h : sys.SessionsCoherent)
    {args : Request.Args α} {connector : Option (α → Bool)} {now : ℚ}
    (hcond : args.resumable = true → args.Opens)
    (hstep : sys.step e (.addRequest args connector now) = .ok sys') (hlive : sys'.sched.Live x)
    (hres : (sys'.sched.objs x).resumable = true) :
    (sys'.sched.objs x).Session ∧ ∀ sampled chunk,
      sys.GoesOn sys' x sampled chunk (.addRequest args connector now) →
        (sys.sched.objs x).Resumes sampled chunk (sys'.sched.objs x) := by
  have hnew : (new args).resumable = args.resumable ∧
      (new args).requestId = args.requestId ∧
      (new args).promptTokenIds = args.prompt.tokenIds := by
    unfold new updateBlockHashes
    split <;> exact ⟨rfl, rfl, rfl⟩
  obtain ⟨hresnew, hid, hpromptnew⟩ := hnew
  cases step_effect hmodest h.conserves hstep hlive with
  | added _ _ _ hin hadds =>
    cases hadds with
    | same hl hobj hother =>
      rw [hobj] at hres ⊢
      refine ⟨h.sessions x hl hres, fun sampled chunk hgo => ?_⟩
      obtain ⟨hx, -, -, hargs, -⟩ := hgo
      rcases hother with hne | hnone
      · exact absurd (hx.symm.trans hid.symm) hne
      · unfold toStreamingUpdate at hnone
        rw [if_pos (hresnew.trans hargs)] at hnone
        cases hnone
    | fresh hx hout hobj =>
      rw [hobj] at hres ⊢
      refine ⟨?_, fun sampled chunk hgo => absurd hgo.2.1.1 hout⟩
      by_cases hargs : args.resumable = true
      · rw [if_pos (hresnew.trans hargs)]
        exact session_new (hcond hargs) _
      · rw [if_neg (fun hr => hargs (hresnew.symm.trans hr))] at hres
        exact absurd (hresnew.symm.trans hres) hargs
    | queued hx hl q hstatus hobj =>
      rw [hobj] at hres ⊢
      have hsession := h.sessions x hl hres
      refine ⟨{ hsession with idle := fun hs => absurd hs hstatus }, fun sampled chunk hgo => ?_⟩
      exact absurd hgo.2.2.1 hstatus
    | resumed hx hl update hstatus hupdate hobj =>
      rw [hobj] at hres ⊢
      rw [updateAsSession_resumable _ update] at hres
      have hsession := h.sessions x hl hres
      obtain ⟨hnew, hresumes⟩ := hsession.toCoherent.updateAsSession (hsession.idle hstatus) update
      refine ⟨hnew, fun sampled chunk hgo => ?_⟩
      obtain ⟨-, -, -, hargs, rfl, rfl⟩ := hgo
      unfold toStreamingUpdate at hupdate
      rw [if_pos (hresnew.trans hargs), hpromptnew] at hupdate
      rw [← Option.some.inj hupdate] at hresumes ⊢
      exact hresumes

section
variable (hmodest : e.enc.Modest) (hsync : e.asyncScheduling = false) (h : sys.SessionsCoherent)
include hmodest hsync h

theorem SessionsCoherent.output {mo : ModelOutput α}
    (hcond : sys.SessionsServed e.toSchedulerConfig (.updateFromOutput mo))
    (hstep : sys.step e (.updateFromOutput mo) = .ok sys') (hlive : sys'.sched.Live x)
    (hres : (sys'.sched.objs x).resumable = true) :
    (sys'.sched.objs x).Session ∧ ∀ sampled chunk,
      sys.GoesOn sys' x sampled chunk (.updateFromOutput mo) →
        (sys.sched.objs x).Resumes sampled chunk (sys'.sched.objs x) := by
  cases step_effect hmodest h.conserves hstep hlive with
  | noOutput _ hin hsame =>
    subst hsame
    refine ⟨h.sessions x hlive hres, fun sampled chunk hgo => ?_⟩
    obtain ⟨-, update, rest, hq, hq', -⟩ := hgo
    exact absurd hq' (queue_ne_rest hq)
  | output _ out failed m hin hl hm hquiet hgets =>
    have hnot (hs : (sys.sched.objs x).status ≠ .waitingForRemoteKvs)
        (hrun : x ∈ sys.sched.running → x ∉ failed) : m = (sys.sched.objs x).numComputedTokens :=
      hm.resolve_right (fun hr => hr.1.elim (fun hf => hrun hf.1 hf.2) hs)
    have hle : m ≤ (sys.sched.objs x).numComputedTokens := hm.elim le_of_eq And.right
    -- the request with its computed tokens counted again
    have hbase (hr : (sys.sched.objs x).resumable = true) :
        ({ sys.sched.objs x with numComputedTokens := m } : Request α).Session := by
      have hsession := h.sessions x hl hr
      refine ⟨⟨hsession.generation, hsession.prompt, hsession.noDrafts, hsession.noPlaceholders⟩,
        hle.trans hsession.computed, fun hs => ?_⟩
      have hs' : (sys.sched.objs x).status = .waitingForStreamingReq := hs
      have hmeq := hnot (by rw [hs']; nofun) (fun hrun => by
        have hstatus := ((Tally.acts h.conserves.sched x).mp hrun).2
        rw [hs'] at hstatus
        cases hstatus)
      subst hmeq
      exact hsession.idle hs
    split at hgets
    · rename_i hx
      have hr := gets_resumable hgets hlive.2 hres
      have hone (hne : mo.sampledTokenIds x ≠ []) : Scheduler.draftsOf out x = [] ∧
          m = (sys.sched.objs x).numTokens ∧
          (sys.sched.objs x).status ≠ .waitingForStreamingReq ∧
          (mo.sampledTokenIds x).length = 1 := by
        obtain ⟨hlen, hdrafts, hrun, hall⟩ := hcond.2 out (by rw [hin]; rfl) x hx.1 hl hr hne
        refine ⟨hdrafts, (hnot (by rw [hrun]; nofun) (fun _ => hx.2)).trans hall, ?_, hlen⟩
        rw [hrun]
        nofun
      obtain ⟨hnext, hgo⟩ := (hbase hr).gets hsync hone hgets hlive.2
      refine ⟨hnext, fun sampled chunk hgoes => ?_⟩
      obtain ⟨rfl, update, rest, hq, hq', rfl⟩ := hgoes
      obtain ⟨hp, ha, ho⟩ := hgo update rest hq hq'
      exact ⟨hp, ha, ho⟩
    · rw [hgets] at hres ⊢
      refine ⟨hbase hres, fun sampled chunk hgoes => ?_⟩
      obtain ⟨-, update, rest, hq, hq', -⟩ := hgoes
      rw [hgets] at hq'
      exact absurd hq' (queue_ne_rest hq)

theorem SessionsCoherent.next {ev : Event α} (hcond : sys.SessionsServed e.toSchedulerConfig ev)
    (hstep : sys.step e ev = .ok sys') (hlive : sys'.sched.Live x)
    (hres : (sys'.sched.objs x).resumable = true) :
    (sys'.sched.objs x).Session ∧ ∀ sampled chunk, sys.GoesOn sys' x sampled chunk ev →
      (sys.sched.objs x).Resumes sampled chunk (sys'.sched.objs x) := by
  by_cases hquiet : ev.quiet = true
  · refine ⟨?_, fun sampled chunk hgo => ?_⟩
    · have heffect := step_effect hmodest h.conserves hstep hlive
      obtain ⟨hl, hsame⟩ := heffect.sameTokens hquiet
      have hsession := h.sessions x hl (hsame.resumable.symm.trans hres)
      cases heffect with
      | added => cases hquiet
      | output => cases hquiet
      | noOutput => cases hquiet
      | scheduled inp out hin _ htreats => exact hsession.scheduled hsync h.conserves.sched htreats
      | drafted drafts spec hin _ hobj hspec =>
        have hnil : spec = [] := by
          rcases hspec with rfl | rfl | hmem
          · exact hsession.noDrafts
          · rfl
          · exact hcond _ hmem (hsame.resumable.symm.trans hres)
        rw [hobj]
        exact { hsession with
          noDrafts := hnil
          idle := fun hs => ⟨(hsession.idle hs).computed, (hsession.idle hs).sampled⟩ }
      | spared ids status connector now hin _ hobj => exact hobj ▸ hsession
      | reset flag hin _ hobj =>
        rw [hobj]
        split
        · refine .of_status ⟨hsession.generation, hsession.prompt, rfl, rfl⟩ ?_ nofun
          change (0 : Int) ≤ (sys.sched.objs x).numTokens
          unfold numTokens
          omega
        · exact hsession
      | paused state hin _ hobj => exact hobj ▸ hsession
    · cases ev with
      | addRequest => cases hquiet
      | updateFromOutput => cases hquiet
      | _ => exact hgo.elim
  · cases ev with
    | addRequest args connector now => exact h.added hmodest hcond hstep hlive hres
    | updateFromOutput mo => exact h.output hmodest hsync hcond hstep hlive hres
    | _ => exact absurd rfl hquiet

theorem SessionsCoherent.step {ev : Event α} (hcond : sys.SessionsServed e.toSchedulerConfig ev)
    (hstep : sys.step e ev = .ok sys') : sys'.SessionsCoherent := by
  have hfound : sys.StopsFound e.toSchedulerConfig ev := by
    cases ev with
    | updateFromOutput mo => exact hcond.1
    | _ => trivial
  exact ⟨h.conserves.step hfound hstep, fun x hlive hres =>
    (h.next hmodest hsync hcond hstep hlive hres).1⟩

end

theorem sessionsCoherent_init (kv : KVCacheManager α) (encoder : ε) (objs : α → Request α) (k : κ) :
    (⟨.init kv encoder objs, k, []⟩ : System α ε κ).SessionsCoherent where
  conserves := conserves_init kv encoder objs k
  sessions _ hlive := absurd hlive.1 not_mem_nil

/-- In every run without asynchronous scheduling that serves its sessions, the tokens of a session
are its prompt and its output, no more than these are computed, and a chunk follows the prompt
and the output without the last sampled token. -/
theorem run_sessions_coherent (henc : e.enc.Embedded) (hsync : e.asyncScheduling = false)
    (kv : KVCacheManager α) (encoder : ε) (objs : α → Request α) (k : κ) {evs : List (Event α)}
    (hcond : Trace.Meets (step e) (SessionsServed e.toSchedulerConfig)
      ⟨.init kv encoder objs, k, []⟩ evs)
    (hrun : run e ⟨.init kv encoder objs, k, []⟩ evs = .ok sys) :
    (∀ x, sys.sched.Live x → (sys.sched.objs x).resumable = true → let req := sys.sched.objs x
      ∃ ids, req.promptTokenIds = some ids ∧ req.allTokenIds = ids ++ req.outputTokenIds ∧
        req.numPromptTokens = ids.length ∧ req.numComputedTokens ≤ req.numTokens) ∧
    ∀ ev sys', sys.SessionsServed e.toSchedulerConfig ev → sys.step e ev = .ok sys' →
      ∀ x, sys'.sched.Live x → (sys'.sched.objs x).resumable = true →
        ∀ sampled chunk, sys.GoesOn sys' x sampled chunk ev →
          (sys.sched.objs x).Resumes sampled chunk (sys'.sched.objs x) := by
  have hcoherent : sys.SessionsCoherent := Trace.run_induct
    (fun _ _ _ h => h.step henc.modest hsync) (sessionsCoherent_init kv encoder objs k) hcond hrun
  refine ⟨fun x hlive hres => ?_, fun ev sys' hnext hstep x hlive hres => ?_⟩
  · have hsession := hcoherent.sessions x hlive hres
    obtain ⟨ids, hprompt, hall, hnum⟩ := hsession.prompt
    exact ⟨ids, hprompt, hall, hnum, hsession.computed⟩
  · exact (hcoherent.next henc.modest hsync hnext hstep hlive hres).2

/-! A session of two chunks whose first answer is one token, with and without a preemption while
that token is in flight. -/

def sessionChunk (ids : List Int) : Event Nat :=
  .addRequest { Request.Args.text 0 0 ids 1 with resumable := true } none 0

def sessionRun (between : List (Event Nat)) : List (Event Nat) :=
  [sessionChunk [1, 2, 3], .schedule .text] ++ between ++
    [.updateFromOutput (.text (fun _ => [7])), sessionChunk [8, 9], .schedule .text]

def sessionSystem : System Nat Unit Unit := .text (.text 2 9 Nat.two_pos false)

/-- After the preemption the tokens of the first chunk are lost, and the prompt keeps them. -/
theorem session_loses_prompt :
    ∃ sys, sessionSystem.run (.text (.text 2 8)) (sessionRun [.resetPrefixCache true]) = .ok sys ∧
      0 ∈ sys.sched.running ∧ (sys.sched.objs 0).resumable = true ∧
      (sys.sched.objs 0).promptTokenIds = some [1, 2, 3, 8, 9] ∧
      (sys.sched.objs 0).allTokenIds = [8, 9] ∧ (sys.sched.objs 0).outputTokenIds = [] := by
  have hval : (sessionSystem.run (.text (.text 2 8))
      (sessionRun [.resetPrefixCache true])).toOption.any (fun sys =>
        decide (0 ∈ sys.sched.running ∧ (sys.sched.objs 0).resumable = true ∧
          (sys.sched.objs 0).promptTokenIds = some [1, 2, 3, 8, 9] ∧
          (sys.sched.objs 0).allTokenIds = [8, 9] ∧ (sys.sched.objs 0).outputTokenIds = [])) =
      true := by
    decide +kernel
  obtain ⟨sys, hrun, hval⟩ := ok_of_any hval
  exact ⟨sys, hrun, of_decide_eq_true hval⟩

/-- A test of the conditions, for runs in which every request of a step is served alike. -/
def sessionsServed (sys : System Nat Unit Unit) : Event Nat → Bool
  | .addRequest args _ _ => args.prompt.tokenIds.isSome && match args.task with
      | .sampling _ _ _ => true
      | .pooling => false
  | .updateFromOutput mo => sys.inFlight.head?.all (fun out => out.numScheduledTokens.all (fun y =>
      decide ((mo.sampledTokenIds y.1).length = 1 ∧ Scheduler.draftsOf out y.1 = [] ∧
        (sys.sched.objs y.1).status = .running ∧
        (sys.sched.objs y.1).numComputedTokens = (sys.sched.objs y.1).numTokens)))
  | .updateDraftTokenIds drafts => drafts.all (fun d => decide (d.2 = []))
  | _ => true

theorem sessionsServed_spec {c : SchedulerConfig} (sys : System Nat Unit Unit) (ev : Event Nat)
    (h : sessionsServed sys ev = true) : sys.SessionsServed c ev := by
  cases ev with
  | addRequest args connector now =>
    obtain ⟨hsome, htask⟩ := Bool.and_eq_true_iff.mp h
    refine fun _ => ⟨hsome, ?_⟩
    cases hk : args.task with
    | sampling => trivial
    | pooling =>
      rw [hk] at htask
      cases htask
  | updateFromOutput mo =>
    have hy {out : SchedulerOutput Nat} (hout : out ∈ sys.inFlight.head?) {x : Nat}
        (hx : x ∈ out.numScheduledTokens.map Prod.fst) : (mo.sampledTokenIds x).length = 1 ∧
          Scheduler.draftsOf out x = [] ∧ (sys.sched.objs x).status = .running ∧
          (sys.sched.objs x).numComputedTokens = (sys.sched.objs x).numTokens := by
      rw [sessionsServed, hout] at h
      obtain ⟨y, hy, rfl⟩ := mem_map.mp hx
      exact of_decide_eq_true (all_eq_true.mp h y hy)
    exact ⟨fun out hout s1 failed _ r hr _ _ hidle => absurd (hy hout hr).2.2.1 hidle,
      fun out hout x hx _ _ _ => hy hout hx⟩
  | updateDraftTokenIds drafts => exact fun d hd _ => of_decide_eq_true (all_eq_true.mp h d hd)
  | _ => trivial

theorem run_sessions_coherent_two_chunks :
    ∃ sys, sessionSystem.run (.text (.text 2 8)) (sessionRun []) = .ok sys ∧
      ∃ ids, (sys.sched.objs 0).promptTokenIds = some ids ∧
        (sys.sched.objs 0).allTokenIds = ids ++ (sys.sched.objs 0).outputTokenIds := by
  have hval : (sessionSystem.run (.text (.text 2 8)) (sessionRun [])).toOption.any (fun sys =>
      decide ((0 ∈ sys.sched.requests ∧ (sys.sched.objs 0).isFinished = false) ∧
        (sys.sched.objs 0).resumable = true)) = true := by
    decide +kernel
  have htest : Trace.passes (step (.text (.text 2 8))) sessionsServed sessionSystem
      (sessionRun []) = true := by
    decide +kernel
  obtain ⟨sys, hrun, hval⟩ := ok_of_any hval
  obtain ⟨hlive, hres⟩ := of_decide_eq_true hval
  obtain ⟨hall, -⟩ := run_sessions_coherent .text rfl _ _ _ _
    (Trace.meets_of_passes sessionsServed_spec htest) hrun
  obtain ⟨ids, hprompt, htokens, -⟩ := hall 0 hlive hres
  exact ⟨sys, hrun, ids, hprompt, htokens⟩

end System
end TailBlend
