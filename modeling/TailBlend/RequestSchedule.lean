import TailBlend.EncoderPasses
import TailBlend.RequestRuns

/-! What `schedule()` does to each request: it is left alone, runs some tokens, is preempted,
becomes ready, waits for a load, or starts. -/
namespace TailBlend
open OrderedDict Scheduler RunningPhase List
variable {α ε κ : Type} [LinearOrder α] {inp : ScheduleInput α}

/-! How many tokens a request gets. -/

/-- Encoder inputs never raise the number of tokens. -/
structure EncoderOps.Modest (ops : EncoderOps α ε) : Prop where
  le : ∀ {enc enc' : ε} {req : Request α} {c n room shift : Int} {plan : EncoderPlan},
    ops.trySchedule enc req c n room shift = .ok (enc', plan) → plan.numNewTokens ≤ max n 0
  nonneg : ∀ {enc enc' : ε} {req : Request α} {c n room shift : Int} {plan : EncoderPlan},
    ops.trySchedule enc req c n room shift = .ok (enc', plan) → 0 ≤ n → 0 ≤ plan.numNewTokens

/-- The encoder of a text model, or the encoder cache of a multi-modal one. -/
inductive EncoderOps.Embedded : {ε : Type} → EncoderOps α ε → Prop
  | text : Embedded text
  | multimodal (isEncoderDecoder disableChunkedMmInput : Bool)
      (hasCacheItem : Nat → String → Bool) :
      Embedded (multimodal isEncoderDecoder disableChunkedMmInput hasCacheItem)

theorem EncoderOps.Embedded.modest {ops : EncoderOps α ε} (h : ops.Embedded) : ops.Modest := by
  cases h with
  | text =>
    refine ⟨fun h => ?_, fun h hn => ?_⟩
    · cases h
      exact le_max_left _ _
    · cases h
      exact hn
  | multimodal =>
    exact ⟨fun h => (trySchedule_shrinks h).1.1, fun h => (trySchedule_shrinks h).1.2⟩

section
omit [LinearOrder α]

variable {req : Request α} {n : Int}

theorem splitTokens_ok {c : SchedulerConfig} {asked l x : Int}
    (h : splitTokens c req asked l x = .ok n) :
    n ≤ max asked 0 ∧ (0 ≤ asked → 0 ≤ n) ∧ (c.needMambaBlockAlignedSplit = false → n = asked) := by
  unfold splitTokens at h
  by_cases hneed : c.needMambaBlockAlignedSplit = true
  · rw [if_pos hneed] at h
    simp only [mambaBlockAlignedSplit, seq_ok_iff] at h
    obtain ⟨-, -, h⟩ := h
    generalize (if c.useEagle = true then max (req.numTokens - req.numTokens % c.blockSize -
      c.blockSize) 0 else req.numTokens - req.numTokens % c.blockSize) = last at h
    refine and_assoc.mp ⟨?_, fun hn => absurd hneed (Bool.eq_false_iff.mp hn)⟩
    have hdiv : asked / c.blockSize * c.blockSize ≤ max asked 0 ∧
        (0 ≤ asked → 0 ≤ asked / c.blockSize * c.blockSize) := by
      rcases Nat.eq_zero_or_pos c.blockSize with h0 | hpos
      · simp [h0]
      · have hle := Int.ediv_mul_le asked (b := c.blockSize) (by omega)
        exact ⟨hle.trans (le_max_left _ _), fun ha => by positivity⟩
    split at h
    · split at h
      · cases h
        exact hdiv
      split at h
      · cases h
        omega
      · cases h
        omega
    · cases h
      omega
  · rw [if_neg hneed] at h
    cases h
    exact ⟨le_max_left _ _, fun hn => hn, fun _ => rfl⟩

theorem RunningPhase.Grants.le {e : Core α ε} (hmodest : e.enc.Modest) (h : Grants e req n) :
    n ≤ max 0 (req.numTokensWithSpec + req.numOutputPlaceholders - req.numComputedTokens) := by
  obtain ⟨budget, asked, hsplit, hasked⟩ := h
  have hn := (splitTokens_ok hsplit).1
  have hwant : wantedTokens e.toSchedulerConfig req budget ≤
      req.numTokensWithSpec + req.numOutputPlaceholders - req.numComputedTokens := by
    unfold wantedTokens
    dsimp only
    split_ifs <;> omega
  rcases hasked with rfl | ⟨enc, enc', plan, room, shift, htry, rfl⟩
  · omega
  · have hle := hmodest.le htry
    omega

theorem WaitingPhase.Grants.bounds {e : Core α ε} (hmodest : e.enc.Modest) {adm : Admission}
    (h : Grants e req adm n) : 0 < n ∧ adm.numComputedTokens + n ≤ req.numTokens := by
  obtain ⟨budget, asked, hsplit, hzero, hpos, hasked⟩ := h
  obtain ⟨hn, hnonneg, hsame⟩ := splitTokens_ok hsplit
  have hwant : wantedTokens e.toSchedulerConfig req adm ≤
      req.numTokens - adm.numComputedTokens := by
    unfold wantedTokens
    dsimp only
    split_ifs <;> omega
  have hask : 0 < asked ∧ asked ≤ req.numTokens - adm.numComputedTokens := by
    rcases hasked with rfl | ⟨hne, enc, enc', plan, room, shift, htry, rfl⟩
    · omega
    · have hle := hmodest.le htry
      have hge := hmodest.nonneg htry hpos.le
      omega
  have hn0 : n ≠ 0 := by
    by_cases hneed : e.needMambaBlockAlignedSplit = true
    · exact hzero hneed
    · rw [hsame (Bool.eq_false_iff.mpr hneed)]
      omega
  omega

end

/-! The first pass. -/

namespace RunningPhase

/-- How the first pass has treated a request so far. -/
inductive Treats (e : Core α ε) (s₀ : Scheduler α ε) (st : RunningPhase α ε) (x : α) : Prop
  | untouched (hobj : st.sched.objs x = s₀.objs x)
      (hkey : get? st.numScheduledTokens x = none)
      (hspec : get? st.scheduledSpecDecodeTokens x = none)
  | scheduled (n : Int) (hrun : x ∈ s₀.running) (hn : n ≠ 0) (hgrant : Grants e (s₀.objs x) n)
      (hobj : st.sched.objs x = { s₀.objs x with specTokenIds := [] })
      (hkey : get? st.numScheduledTokens x = some n)
      (hspec : (get? st.scheduledSpecDecodeTokens x).getD [] =
        scheduledDrafts (s₀.objs x) n)
  | preempted (hrun : x ∈ s₀.running) (hobj : st.sched.objs x = (s₀.objs x).preempt)
      (hkey : get? st.numScheduledTokens x = none)
      (hpre : st.preemptedReqs ≠ [])

/-- The requests behind `req_index` are untouched, and what is planned can be taken back. -/
structure Follows (e : Core α ε) (s₀ : Scheduler α ε) (st : RunningPhase α ε) : Prop where
  running : st.sched.running.Sublist s₀.running
  later : ∀ x ∈ st.sched.running.drop st.reqIndex, st.sched.objs x = s₀.objs x ∧
    get? st.numScheduledTokens x = none ∧
    get? st.scheduledSpecDecodeTokens x = none
  planned : ∀ x, get? st.numScheduledTokens x ≠ none → x ∈ st.scheduledRunningReqs
  treats : ∀ x, Treats e s₀ st x

variable {e : Core α ε} {s₀ : Scheduler α ε} {st st' : RunningPhase α ε}
  {s : Scheduler α ε} {v : α}

theorem Treats.withSched {x : α} (h : Treats e s₀ st x) (hobjs : s.objs = st.sched.objs)
    (i : Nat) : Treats e s₀ { st with sched := s, reqIndex := i } x := by
  cases h with
  | untouched hobj hkey hspec => exact .untouched (by rw [hobjs]; exact hobj) hkey hspec
  | scheduled n hrun hn hgrant hobj hkey hspec =>
    exact .scheduled n hrun hn hgrant (by rw [hobjs]; exact hobj) hkey hspec
  | preempted hrun hobj hkey hpre => exact .preempted hrun (by rw [hobjs]; exact hobj) hkey hpre

theorem Follows.skip (h : Follows e s₀ st) : Follows e s₀ st.skip where
  running := h.running
  later x hx := h.later x (drop_subset_drop_left _ (Nat.le_succ _) hx)
  planned := h.planned
  treats x := (h.treats x).withSched rfl _

theorem Follows.withSched (h : Follows e s₀ st) (hrunning : s.running = st.sched.running)
    (hobjs : s.objs = st.sched.objs) :
    Follows e s₀ { st with sched := s } where
  running := by rw [hrunning]; exact h.running
  later x hx := by
    rw [hrunning] at hx
    rw [hobjs]
    exact h.later x hx
  planned := h.planned
  treats x := (h.treats x).withSched hobjs _

theorem Follows.record (hnodup : s₀.running.Nodup) (h : Follows e s₀ st) {r : α} {n : Int}
    {blocks : List (List Nat)} {plan : EncoderPlan} {encoder : ε}
    (hr : st.sched.running[st.reqIndex]? = some r) (hn : n ≠ 0)
    (hgrant : Grants e (st.sched.objs r) n) :
    Follows e s₀ (st.record r n blocks plan encoder) := by
  have hdrop := drop_reqIndex hr
  have hnd := (hnodup.sublist h.running).sublist (drop_sublist st.reqIndex _)
  rw [hdrop, nodup_cons] at hnd
  obtain ⟨hobjr, hkeyr, hspecr⟩ := h.later r (by rw [hdrop]; exact mem_cons_self)
  have hrun : r ∈ s₀.running := h.running.subset (mem_of_getElem? hr)
  have hobjs (x : α) : (st.record r n blocks plan encoder).sched.objs x =
      if x = r then { st.sched.objs x with specTokenIds := [] } else st.sched.objs x := rfl
  have hnum (x : α) : get? (st.record r n blocks plan encoder).numScheduledTokens x =
      if x = r then some n else get? st.numScheduledTokens x :=
    get?_set _ r x n
  have hspec (x : α) (hx : x ≠ r) :
      get? (st.record r n blocks plan encoder).scheduledSpecDecodeTokens x =
        get? st.scheduledSpecDecodeTokens x := by
    unfold RunningPhase.record
    dsimp only
    split_ifs
    · rfl
    · rw [get?_set, if_neg hx]
  refine ⟨h.running, fun x hx => ?_, fun x hx => ?_, fun x => ?_⟩
  · have hne : x ≠ r := fun heq => hnd.1 (heq ▸ hx)
    rw [hobjs, if_neg hne, hnum, if_neg hne, hspec x hne]
    exact h.later x (by rw [hdrop]; exact mem_cons_of_mem _ hx)
  · by_cases hne : x = r
    · subst hne
      simp [RunningPhase.record]
    · rw [hnum, if_neg hne] at hx
      exact mem_append_left _ (h.planned x hx)
  · by_cases hne : x = r
    · subst hne
      refine .scheduled n hrun hn (hobjr ▸ hgrant) (by rw [hobjs, if_pos rfl, hobjr])
        (by rw [hnum, if_pos rfl]) ?_
      unfold RunningPhase.record
      dsimp only
      rw [hobjr]
      split_ifs with hnil
      · rw [hspecr, hnil]
        rfl
      · rw [get?_set, if_pos rfl]
        rfl
    cases h.treats x with
    | untouched hobj hkey hs =>
      exact .untouched (by rw [hobjs, if_neg hne, hobj]) (by rw [hnum, if_neg hne, hkey])
        (by rw [hspec x hne, hs])
    | scheduled m hm hm0 hg hobj hkey hs =>
      exact .scheduled m hm hm0 hg (by rw [hobjs, if_neg hne, hobj])
        (by rw [hnum, if_neg hne, hkey]) (by rw [hspec x hne, hs])
    | preempted hm hobj hkey hpre =>
      exact .preempted hm (by rw [hobjs, if_neg hne, hobj]) (by rw [hnum, if_neg hne, hkey]) hpre

theorem takeOut_get? (st : RunningPhase α ε) {x : α} (hx : x ≠ v) :
    get? (st.takeOut v).numScheduledTokens x =
      get? st.numScheduledTokens x ∧
    get? (st.takeOut v).scheduledSpecDecodeTokens x =
      get? st.scheduledSpecDecodeTokens x ∧
    (x ∈ st.scheduledRunningReqs → x ∈ (st.takeOut v).scheduledRunningReqs) := by
  unfold takeOut
  dsimp only
  split
  · exact ⟨get?_erase_of_ne _ hx, get?_erase_of_ne _ hx, (mem_erase_of_ne hx).mpr⟩
  · exact ⟨rfl, rfl, id⟩

theorem takeOut_get?_self (st : RunningPhase α ε)
    (hplanned : get? st.numScheduledTokens v ≠ none → v ∈ st.scheduledRunningReqs) :
    get? (st.takeOut v).numScheduledTokens v = none := by
  unfold takeOut
  dsimp only
  split
  · exact get?_erase_self _ _
  · rename_i hout
    by_contra hne
    exact hout (hplanned hne)

theorem Follows.preempt (hnodup : s₀.running.Nodup) (h : Follows e s₀ st)
    (hpre : st.preempt e v = .ok st') : Follows e s₀ st' := by
  have hobjs := preempt_objs hpre
  obtain ⟨hmem, hstatus, rfl⟩ := preempt_ok hpre
  have hnd := hnodup.sublist h.running
  refine ⟨?_, fun x hx => ?_, fun x hx => ?_, fun x => ?_⟩
  · change (st.takeOut v).sched.running.Sublist _
    rw [takeOut_running]
    exact erase_sublist.trans h.running
  · change x ∈ (st.takeOut v).sched.running.drop (st.takeOut v).reqIndex at hx
    rw [takeOut_running, takeOut_reqIndex] at hx
    have hne : x ≠ v := by
      rintro rfl
      exact hnd.not_mem_erase (mem_of_mem_drop hx)
    obtain ⟨hnum, hspec, -⟩ := takeOut_get? st hne
    rw [hobjs, if_neg hne]
    simp only [hnum, hspec]
    exact h.later x (mem_drop_erase hx)
  · by_cases hne : x = v
    · subst hne
      exact absurd (takeOut_get?_self st (h.planned x)) hx
    · obtain ⟨hnum, -, hkeep⟩ := takeOut_get? st hne
      simp only [hnum] at hx
      exact hkeep (h.planned x hx)
  · by_cases hne : x = v
    · subst hne
      have hrun : x ∈ s₀.running := h.running.subset hmem
      have hnum := takeOut_get?_self st (h.planned x)
      refine .preempted hrun ?_ hnum (by simp)
      rw [hobjs, if_pos rfl]
      cases h.treats x with
      | untouched hobj => rw [hobj]
      | scheduled n _ _ _ hobj => rw [hobj]; rfl
      | preempted _ hobj =>
        rw [hobj] at hstatus
        cases hstatus
    obtain ⟨hnum, hspec, -⟩ := takeOut_get? st hne
    cases h.treats x with
    | untouched hobj hkey hs =>
      exact .untouched (by rw [hobjs, if_neg hne, hobj]) (hnum.trans hkey) (hspec.trans hs)
    | scheduled m hm hm0 hg hobj hkey hs =>
      exact .scheduled m hm hm0 hg (by rw [hobjs, if_neg hne, hobj]) (hnum.trans hkey)
        (by simp only [hspec]; exact hs)
    | preempted hm hobj hkey hp =>
      exact .preempted hm (by rw [hobjs, if_neg hne, hobj]) (hnum.trans hkey) (by simp)

theorem Move.follows (hnodup : s₀.running.Nodup) {V : RunningPhase α ε → α → Prop}
    (h : Follows e s₀ st) (hmove : Move e V st st') : Follows e s₀ st' := by
  cases hmove with
  | skip => exact h.skip
  | encoder _ req n plan hplan =>
    obtain ⟨encoder, rfl⟩ := planEncoder_sched hplan
    exact h.withSched rfl rfl
  | schedule r n kv blocks plan encoder hr hn halloc hgrant =>
    have hkv : Follows e s₀ (st.withKV kv) := h.withSched rfl rfl
    exact hkv.record hnodup hr hn hgrant
  | preempt _ r n kv v hr hn halloc hV hpre =>
    have hkv : Follows e s₀ (st.withKV kv) := h.withSched rfl rfl
    exact hkv.preempt hnodup hpre

theorem follows_init (c : SchedulerConfig) (s : Scheduler α ε) : Follows e s (init c s) where
  running := .refl _
  later _ _ := ⟨rfl, rfl, rfl⟩
  planned _ hx := absurd rfl hx
  treats _ := .untouched rfl rfl rfl

theorem loop_follows {admitted : Option (List α)} {victim : Scheduler α ε → Nat → α → Option α}
    (hnodup : s.running.Nodup) (h : (init e.toSchedulerConfig s).loop e admitted victim = .ok st) :
    Follows e s st :=
  invariant_of_moves (I := Follows e s) (fun _ _ hx hmove => Move.follows hnodup hx hmove)
    (follows_init _ s) (loop_moves (passOK_true _) h)

end RunningPhase

/-! The second pass. -/

namespace WaitingPhase

omit [LinearOrder α] in
theorem lookup_ok {s : Scheduler α ε} {r : α} {adm : Admission}
    (h : lookup inp s r = .ok (some adm)) :
    ((s.objs r).numComputedTokens = 0 ∧ 0 ≤ adm.numComputedTokens ∧
      adm.numComputedTokens ≤ (s.objs r).numTokens) ∨
    (s.objs r).numComputedTokens ≠ 0 ∧ adm.loadKvAsync = false ∧
      adm.numComputedTokens = (s.objs r).numComputedTokens := by
  unfold lookup at h
  dsimp only at h
  by_cases h0 : (s.objs r).numComputedTokens = 0
  · rw [if_pos h0, seq_ok_iff] at h
    obtain ⟨⟨blocks, numLocal⟩, -, h⟩ := h
    split at h
    · cases h
    simp only [seq_ok_iff, pyAssert_eq_ok] at h
    obtain ⟨-, hle, -, -, h⟩ := h
    obtain rfl := Option.some.inj (Except.ok.inj h)
    exact .inl ⟨h0, Int.natCast_nonneg _, hle⟩
  · rw [if_neg h0] at h
    obtain rfl := Option.some.inj (Except.ok.inj h)
    exact .inr ⟨h0, rfl, rfl⟩

/-- How the second pass has treated a request so far. -/
inductive Treats (s₁ : Scheduler α ε) (num₁ : List (α × Int)) (st : WaitingPhase α ε) (x : α) : Prop
  | kept (hobj : st.sched.objs x = s₁.objs x)
      (hkey : get? st.numScheduledTokens x = get? num₁ x)
  | promoted (hready : (s₁.objs x).Promoted (st.sched.objs x))
      (hkey : get? st.numScheduledTokens x = get? num₁ x)
  | loading (base : Request α) (m : Int) (hbase : base = s₁.objs x ∨ (s₁.objs x).Promoted base)
      (hidle : base.status ≠ .running ∧ base.isFinished = false)
      (hzero : base.numComputedTokens = 0) (hm : 0 ≤ m ∧ m ≤ base.numTokens)
      (hobj : st.sched.objs x = { base with
        status := .waitingForRemoteKvs, numComputedTokens := m })
      (hkey : get? st.numScheduledTokens x = get? num₁ x)
      (hset : x ∈ st.stepSkippedWaiting)
  | started (base : Request α) (m n : Int)
      (hbase : base = s₁.objs x ∨ (s₁.objs x).Promoted base)
      (hstatus : base.status = .waiting ∨ base.status = .preempted)
      (hm : base.numComputedTokens = 0 ∧ 0 ≤ m ∨ m = base.numComputedTokens)
      (hn : 0 < n ∧ m + n ≤ base.numTokens)
      (hobj : st.sched.objs x = { base with status := .running, numComputedTokens := m })
      (hkey : get? st.numScheduledTokens x = some n)

section pass
variable {e : Core α ε} {s₁ : Scheduler α ε} {num₁ : List (α × Int)} {st st' : WaitingPhase α ε}

theorem Treats.frame {x : α} (h : Treats s₁ num₁ st x)
    (hobj : st'.sched.objs x = st.sched.objs x)
    (hkey : get? st'.numScheduledTokens x = get? st.numScheduledTokens x)
    (hset : x ∈ st.stepSkippedWaiting → x ∈ st'.stepSkippedWaiting) : Treats s₁ num₁ st' x := by
  cases h with
  | kept ho hk => exact .kept (hobj.trans ho) (hkey.trans hk)
  | promoted hr hk => exact .promoted (by rw [hobj]; exact hr) (hkey.trans hk)
  | loading base m hb hi hz hm ho hk hs =>
    exact .loading base m hb hi hz hm (hobj.trans ho) (hkey.trans hk) (hset hs)
  | started base m n hb hst hm hn ho hk =>
    exact .started base m n hb hst hm hn (hobj.trans ho) (hkey.trans hk)

theorem Treats.ready {r : α} {skipped : Bool} (h : Treats s₁ num₁ st r)
    (hc : st.sched.Conserved st.stepSkippedWaiting) (hr : st.sched.peekWaiting skipped = some r) :
    ((st.sched.objs r).status ≠ .running ∧ (st.sched.objs r).isFinished = false) ∧
    get? st.numScheduledTokens r = get? num₁ r ∧
    (st.sched.objs r = s₁.objs r ∨ (s₁.objs r).Promoted (st.sched.objs r)) := by
  have hmem := mem_of_peekWaiting hr
  have hrest : r ∈ st.sched.waiting ++ st.sched.skippedWaiting ++ st.stepSkippedWaiting :=
    mem_append_left _ hmem
  have hlive : st.sched.Live r := Tally.live_of_mem hc (.inr hrest)
  have hidle : (st.sched.objs r).status ≠ .running := fun hs =>
    Tally.not_mem_rest hc ((Tally.acts hc r).mpr ⟨hlive.1, hs⟩) hrest
  refine ⟨⟨hidle, hlive.2⟩, ?_⟩
  cases h with
  | kept hobj hkey => exact ⟨hkey, .inl hobj⟩
  | promoted hready hkey => exact ⟨hkey, .inr hready⟩
  | loading base m hbase hi hz hm hobj hkey hset =>
    have hone := Tally.once hc r hlive
    rw [count_append] at hone
    have h1 := count_pos_iff.mpr hmem
    have h2 := count_pos_iff.mpr hset
    omega
  | started base m n hbase hstatus hm hn hobj hkey =>
    rw [hobj] at hidle
    exact absurd rfl hidle

variable {inp : ScheduleInput α}

theorem Move.treats (hmodest : e.enc.Modest) {L : KVCacheManager α → Request α → Admission → Prop}
    (hc : st.sched.Conserved st.stepSkippedWaiting) (h : ∀ x, Treats s₁ num₁ st x)
    (hmove : Move e inp L st st') (x : α) : Treats s₁ num₁ st' x := by
  have hadd (policy : SchedulingPolicy) (lt : α → α → Bool) (l : List α) (r : α) :
      ∀ y, y ∈ RequestQueue.prependRequest policy lt l r ↔ y = r ∨ y ∈ l := fun y => by
    rw [(RequestQueue.prependRequest_perm policy lt l r).mem_iff, mem_cons]
  cases hmove with
  | encoder _ req adm n plan hplan =>
    obtain ⟨encoder, rfl⟩ := planEncoder_sched hplan
    exact (h x).frame rfl rfl id
  | promote skipped r s ready hr hs =>
    obtain ⟨-, -, hother, hblocked, hself⟩ := tryPromote_ok hs
    by_cases hx : x = r
    · subst hx
      obtain ⟨-, hkey, hbase⟩ := (h x).ready hc hr
      rcases hself with hsame | hready
      · exact (h x).frame hsame rfl id
      rcases hbase with hsame | hbase
      · exact .promoted (hsame ▸ hready) hkey
      -- a ready request is not blocked
      obtain ⟨-, status, computed, hobj, hstatus, -⟩ := hbase
      rw [hobj] at hblocked
      rcases hstatus with rfl | rfl <;> cases hblocked
    · exact (h x).frame (hother x hx) rfl id
  | skip skipped r hr =>
    refine (h x).frame (by cases skipped <;> rfl) rfl (fun hm => ?_)
    exact (hadd _ _ _ _ _).mpr (.inr hm)
  | fail skipped r adm g kv hr hlookup hL halloc => exact (h x).frame rfl rfl id
  | awaitLoad skipped r adm g kv blocks hr hlookup hL halloc hload =>
    have hobjs := awaitLoad_objs e st kv skipped r adm
    have hset : x ∈ ((st.withKV kv).awaitLoad e skipped r adm).stepSkippedWaiting ↔
        x = r ∨ x ∈ st.stepSkippedWaiting := hadd _ _ _ _ _
    by_cases hx : x = r
    · subst hx
      obtain ⟨hidle, hkey, hbase⟩ := (h x).ready hc hr
      rcases lookup_ok hlookup with ⟨hzero, hm⟩ | ⟨-, hno, -⟩
      · exact .loading (st.sched.objs x) adm.numComputedTokens hbase hidle hzero hm
          (by rw [hobjs, if_pos rfl]) hkey (hset.mpr (.inl rfl))
      · exact absurd (hno.symm.trans hload) nofun
    · exact (h x).frame (by rw [hobjs, if_neg hx]) rfl (fun hm => hset.mpr (.inr hm))
  | start skipped r adm g kv blocks hr hlookup hL halloc hload hstatus encoder henc hgrant =>
    have hobjs := started_objs e st kv skipped r adm g encoder
    have hnum : get? ((st.withKV kv).started e skipped r adm g
        encoder).numScheduledTokens x = if x = r then some g.numNewTokens
          else get? st.numScheduledTokens x := get?_set _ r x _
    by_cases hx : x = r
    · subst hx
      obtain ⟨-, -, hbase⟩ := (h x).ready hc hr
      refine .started (st.sched.objs x) adm.numComputedTokens g.numNewTokens hbase hstatus ?_
        (hgrant.bounds hmodest) (by rw [hobjs, if_pos rfl]) (by rw [hnum, if_pos rfl])
      rcases lookup_ok hlookup with ⟨hzero, hm, -⟩ | ⟨-, -, hsame⟩
      · exact .inl ⟨hzero, hm⟩
      · exact .inr hsame
    · exact (h x).frame (by rw [hobjs, if_neg hx]) (by rw [hnum, if_neg hx]) id

theorem loop_treats (hmodest : e.enc.Modest) {defer : Scheduler α ε → α → Bool}
    (hc : st.sched.Conserved st.stepSkippedWaiting) (h : st.loop e inp defer = .ok st') (x : α) :
    Treats st.sched st.numScheduledTokens st' x := by
  have hend : st'.sched.Conserved st'.stepSkippedWaiting ∧
      ∀ x, Treats st.sched st.numScheduledTokens st' x :=
    invariant_of_moves (I := fun w : WaitingPhase α ε => w.sched.Conserved w.stepSkippedWaiting ∧
        ∀ x, Treats st.sched st.numScheduledTokens w x)
      (fun _ _ hx hmove => ⟨hmove.conserved hx.1, Move.treats hmodest hx.1 hx.2 hmove⟩)
      ⟨hc, fun _ => .kept rfl rfl⟩ (loop_moves (passOK_true _) h)
  exact hend.2 x

end pass
end WaitingPhase

/-! The call as a whole. -/

namespace Scheduler

/-- What `schedule()` does to a request. -/
inductive Treats (c : SchedulerConfig) (s s' : Scheduler α ε) (out : SchedulerOutput α) (x : α) :
    Prop
  | untouched (hobj : s'.objs x = s.objs x)
      (hkey : get? out.numScheduledTokens x = none)
  | ran (n : Int) (hrun : x ∈ s.running) (hn : n ≠ 0)
      (hle : n ≤ max 0 ((s.objs x).numTokensWithSpec + (s.objs x).numOutputPlaceholders -
        (s.objs x).numComputedTokens))
      (hkey : get? out.numScheduledTokens x = some n)
      (hspec : (get? out.scheduledSpecDecodeTokens x).getD [] =
        RunningPhase.scheduledDrafts (s.objs x) n)
      (hobj : s'.objs x = advance c n (RunningPhase.scheduledDrafts (s.objs x) n).length
        { s.objs x with specTokenIds := [] })
  | preempted (hrun : x ∈ s.running) (hobj : s'.objs x = (s.objs x).preempt)
      (hkey : get? out.numScheduledTokens x = none)
  | promoted (hready : (s.objs x).Promoted (s'.objs x))
      (hkey : get? out.numScheduledTokens x = none)
  | loading (base : Request α) (m : Int) (hbase : base = s.objs x ∨ (s.objs x).Promoted base)
      (hidle : base.status ≠ .running ∧ base.isFinished = false)
      (hzero : base.numComputedTokens = 0) (hm : 0 ≤ m ∧ m ≤ base.numTokens)
      (hobj : s'.objs x = { base with status := .waitingForRemoteKvs, numComputedTokens := m })
      (hkey : get? out.numScheduledTokens x = none)
  | started (base : Request α) (m n : Int)
      (hbase : base = s.objs x ∨ (s.objs x).Promoted base)
      (hstatus : base.status = .waiting ∨ base.status = .preempted)
      (hm : base.numComputedTokens = 0 ∧ 0 ≤ m ∨ m = base.numComputedTokens)
      (hn : 0 < n ∧ m + n ≤ base.numTokens)
      (hkey : get? out.numScheduledTokens x = some n)
      (hspec : (get? out.scheduledSpecDecodeTokens x).getD [] = [])
      (hobj : s'.objs x = advance c n 0 { base with status := .running, numComputedTokens := m })

variable {c : SchedulerConfig} {s s' : Scheduler α ε} {e : Core α ε} {inp : ScheduleInput α}
  {admitted : Option (List α)} {victim : Scheduler α ε → Nat → α → Option α}
  {defer : Scheduler α ε → α → Bool} {p : Plan α ε} {out : SchedulerOutput α}

theorem updateAfterSchedule_objs {spec : List (α × List Int)} {scheduled : List (α × Int)}
    (hnodup : (scheduled.map Prod.fst).Nodup) (h : s.updateAfterSchedule c spec scheduled = .ok s')
    (x : α) :
    s'.objs x = ((get? scheduled x).map (fun n =>
      advance c n ((get? spec x).getD []).length (s.objs x))).getD (s.objs x) := by
  induction scheduled generalizing s with
  | nil =>
    cases h
    rfl
  | cons y ys ih =>
    obtain ⟨r, n⟩ := y
    rw [map_cons, nodup_cons] at hnodup
    unfold updateAfterSchedule at h
    split at h
    · rw [ih hnodup.2 h]
      by_cases hx : x = r
      · subst hx
        have hnone : get? ys x = none := get?_eq_none.mpr hnodup.1
        rw [hnone]
        simp [get?, afterScheduled]
      have hcons : get? ((r, n) :: ys) x = get? ys x := by
        simp [get?, Ne.symm hx]
      have hobj : (s.afterScheduled c spec r n).objs x = s.objs x := by
        simp [afterScheduled, hx]
      rw [hcons, hobj]
    · cases h

theorem plan_treats (hmodest : e.enc.Modest) (hc : s.Conserved [])
    (hp : plan e inp admitted victim defer s = .ok p) :
    ∃ (st : RunningPhase α ε) (w : WaitingPhase α ε), (∀ x, st.Treats e s x) ∧
      (∀ x, w.Treats st.sched st.numScheduledTokens x) ∧
      (st.preemptedReqs ≠ [] → w.sched = st.sched ∧ w.numScheduledTokens = st.numScheduledTokens) ∧
      p.sched.objs = w.sched.objs ∧ p.numScheduledTokens = w.numScheduledTokens ∧
      p.scheduledSpecDecodeTokens = st.scheduledSpecDecodeTokens := by
  simp only [plan, waitingPass, seq_ok_iff] at hp
  obtain ⟨st, hst, -, -, w, hw, hp⟩ := hp
  cases hp
  have hstart : ({ s with kv := s.kv.newStepStarts } : Scheduler α ε).Conserved [] :=
    hc.same_status ⟨rfl, rfl, rfl, rfl⟩ (fun _ => rfl)
  have hfirst := loop_follows (Tally.nodup_active hstart) hst
  have hmid : st.sched.Conserved [] :=
    invariant_of_moves (I := fun st : RunningPhase α ε => st.sched.Conserved [])
      (fun _ _ h hmove => hmove.conserved h) hstart
      (loop_moves (passOK_true _) hst)
  refine ⟨st, w, fun x => ?_, ?_, ?_, rfl, rfl, rfl⟩
  · cases hfirst.treats x with
    | untouched hobj hkey hspec => exact .untouched hobj hkey hspec
    | scheduled n hrun hn hgrant hobj hkey hspec =>
      exact .scheduled n hrun hn hgrant hobj hkey hspec
    | preempted hrun hobj hkey hpre => exact .preempted hrun hobj hkey hpre
  · split at hw
    · exact WaitingPhase.loop_treats hmodest hmid hw
    · cases hw
      exact fun _ => .kept rfl rfl
  · intro hpre
    rw [if_neg (fun h => hpre h.1)] at hw
    cases hw
    exact ⟨rfl, rfl⟩

theorem issue_objs {features : Scheduler α ε → List (α × Int) → StepFeatures}
    (hnodup : (p.numScheduledTokens.map Prod.fst).Nodup) (h : issue e features p = .ok (s, out)) :
    out.numScheduledTokens = p.numScheduledTokens ∧
    out.scheduledSpecDecodeTokens = p.scheduledSpecDecodeTokens ∧
    ∀ x, s.objs x = ((get? p.numScheduledTokens x).map (fun n =>
      advance e.toSchedulerConfig n
        ((get? p.scheduledSpecDecodeTokens x).getD []).length
        (p.sched.objs x))).getD (p.sched.objs x) := by
  simp only [issue, seq_ok_iff] at h
  obtain ⟨-, -, newData, -, rows, -, resumed, -, s2, hs2, h⟩ := h
  cases h
  exact ⟨rfl, rfl, fun x => updateAfterSchedule_objs hnodup hs2 x⟩

theorem schedule_treats {e : Env α ε κ} (hmodest : e.enc.Modest) {k k' : κ} (hc : s.Conserved [])
    (h : s.schedule e inp k = .ok (s', k', out)) (x : α) :
    Treats e.toSchedulerConfig s s' out x := by
  simp only [schedule, seq_ok_iff] at h
  obtain ⟨p, hp, ⟨s₁, out1⟩, hissue, hend⟩ := h
  obtain ⟨rfl, hout⟩ := Prod.mk.inj (Except.ok.inj hend)
  obtain ⟨-, rfl⟩ := Prod.mk.inj hout
  obtain ⟨hnum1, hspec1, hadv⟩ := issue_objs (plan_nodup_keys hp) hissue
  replace hadv := hadv x
  obtain ⟨st, w, hfirst, hsecond, hpre, hobjs, hnum, hspec⟩ := plan_treats hmodest hc hp
  rw [hobjs, hnum, hspec] at hadv
  rw [hnum] at hnum1
  rw [hspec] at hspec1
  have hruns (hrun : x ∈ s.running) : (s.objs x).status = .running := ((Tally.acts hc x).mp hrun).2
  cases hsecond x with
  | kept hobj hkey =>
    rw [hkey, hobj] at hadv
    rw [← hnum1] at hkey
    cases hfirst x with
    | untouched ho hk hs =>
      rw [hk] at hadv hkey
      exact .untouched (hadv.trans ho) hkey
    | scheduled n hrun hn hgrant ho hk hs =>
      rw [hk, hs, ho] at hadv
      exact .ran n hrun hn (hgrant.le hmodest) (hkey.trans hk) (by rw [hspec1]; exact hs) hadv
    | preempted hrun ho hk hne =>
      rw [hk] at hadv hkey
      exact .preempted hrun (hadv.trans ho) hkey
  | promoted hready hkey =>
    cases hfirst x with
    | untouched ho hk hs =>
      rw [hkey, hk] at hadv
      rw [ho] at hready
      exact .promoted (by rw [hadv]; exact hready) (by rw [hnum1]; exact hkey.trans hk)
    | scheduled n hrun hn hgrant ho hk hs =>
      have hblocked := hready.blocked
      rw [ho] at hblocked
      rcases hblocked with hb | hb <;> cases (hruns hrun).symm.trans hb
    | preempted hrun ho hk hne =>
      have hblocked := hready.blocked
      rw [ho] at hblocked
      rcases hblocked with hb | hb <;> cases hb
  | loading base m hbase hidle hzero hm hobj hkey hset =>
    cases hfirst x with
    | untouched ho hk hs =>
      rw [hkey, hk, hobj] at hadv
      rw [ho] at hbase
      exact .loading base m hbase hidle hzero hm hadv (by rw [hnum1]; exact hkey.trans hk)
    | scheduled n hrun hn hgrant ho hk hs =>
      rw [ho] at hbase
      rcases hbase with rfl | ⟨hb | hb, -⟩
      · exact absurd (hruns hrun) hidle.1
      · cases (hruns hrun).symm.trans hb
      · cases (hruns hrun).symm.trans hb
    | preempted hrun ho hk hne =>
      rw [(hpre hne).1, ho] at hobj
      cases congrArg Request.status hobj
  | started base m n hbase hstatus hm hn hobj hkey =>
    cases hfirst x with
    | untouched ho hk hs =>
      rw [hkey, hobj, hs] at hadv
      rw [ho] at hbase
      exact .started base m n hbase hstatus hm hn (by rw [hnum1]; exact hkey)
        (by rw [hspec1, hs]; rfl) hadv
    | scheduled n hrun hn hgrant ho hk hs =>
      rw [ho] at hbase
      rcases hbase with rfl | ⟨hb | hb, -⟩
      · rcases hstatus with hb | hb <;> cases (hruns hrun).symm.trans hb
      · cases (hruns hrun).symm.trans hb
      · cases (hruns hrun).symm.trans hb
    | preempted hrun ho hk hne =>
      rw [(hpre hne).1, ho] at hobj
      cases congrArg Request.status hobj

theorem Treats.unfinished {x : α} (hc : s.Conserved []) (h : Treats c s s' out x)
    (hfin : (s'.objs x).isFinished = false) : (s.objs x).isFinished = false := by
  have hblocked {base : Request α} (hb : base = s.objs x ∨ (s.objs x).Promoted base)
      (hf : base.isFinished = false) : (s.objs x).isFinished = false := by
    rcases hb with rfl | ⟨hb | hb, -⟩
    · exact hf
    · rw [Request.isFinished, hb]
      rfl
    · rw [Request.isFinished, hb]
      rfl
  cases h with
  | untouched hobj => rwa [hobj] at hfin
  | ran n hrun => exact (Tally.live_of_mem hc (.inl hrun)).2
  | preempted hrun => exact (Tally.live_of_mem hc (.inl hrun)).2
  | promoted hready => exact hblocked (.inr hready) hfin
  | loading base m hbase hidle => exact hblocked hbase hidle.2
  | started base m n hbase hstatus =>
    refine hblocked hbase ?_
    rcases hstatus with hs | hs <;> rw [Request.isFinished, hs] <;> rfl

theorem plan_requests (hp : plan e inp admitted victim defer s = .ok p) :
    p.sched.requests = s.requests := by
  simp only [plan, waitingPass, seq_ok_iff] at hp
  obtain ⟨st, hst, -, -, w, hw, hp⟩ := hp
  cases hp
  have hfirst : st.sched.requests = s.requests := by
    refine invariant_of_moves (I := fun x : RunningPhase α ε => x.sched.requests = s.requests)
      (fun a b h hmove => ?_) rfl (loop_moves (passOK_true _) hst)
    cases hmove with
    | skip => exact h
    | encoder _ req n plan hplan =>
      obtain ⟨encoder, rfl⟩ := planEncoder_sched hplan
      exact h
    | schedule r n kv blocks plan encoder hr hn halloc hgrant => exact h
    | preempt _ r n kv v hr hn halloc hV hpre =>
      obtain ⟨-, -, rfl⟩ := preempt_ok hpre
      rw [takeOut_sched]
      exact h
  split at hw
  · refine invariant_of_moves (I := fun x : WaitingPhase α ε => x.sched.requests = s.requests)
      (fun a b h hmove => ?_) hfirst (WaitingPhase.loop_moves (WaitingPhase.passOK_true _) hw)
    cases hmove with
    | encoder _ req adm n plan hplan =>
      obtain ⟨encoder, rfl⟩ := WaitingPhase.planEncoder_sched hplan
      exact h
    | promote skipped r s₁ ready hr hs =>
      obtain ⟨hq, -⟩ := tryPromote_ok hs
      exact hq.requests.trans h
    | skip skipped r hr => cases skipped <;> exact h
    | fail skipped r adm g kv hr hlookup hL halloc => exact h
    | awaitLoad skipped r adm g kv blocks hr hlookup hL halloc hload => cases skipped <;> exact h
    | start skipped r adm g kv blocks hr hlookup hL halloc hload hstatus encoder henc hgrant =>
      cases skipped <;> exact h
  · cases hw
    exact hfirst

theorem schedule_requests {e : Env α ε κ} {k k' : κ} (h : s.schedule e inp k = .ok (s', k', out)) :
    s'.requests = s.requests := by
  simp only [schedule, issue, seq_ok_iff] at h
  obtain ⟨p, hp, ⟨s₁, out1⟩, ⟨-, -, newData, -, rows, -, resumed, -, s2, hs2, hout⟩, hend⟩ := h
  cases hout
  cases hend
  exact (updateAfterSchedule_ok hs2).1.requests.trans (plan_requests hp)

end Scheduler
end TailBlend
