import TailBlend.RequestSchedule

/-! What the other calls do to each request. -/
namespace TailBlend
open OrderedDict Scheduler List
variable {α ε κ : Type} [LinearOrder α]

/-- Rejected drafts are taken back. -/
def Request.settled (drafts generated : List Int) (req : Request α) : Request α :=
  if drafts ≠ [] ∧ generated ≠ [] then
    rejectDrafts drafts.length generated.length req
  else req

namespace Scheduler

/-- What a step's output does to a request of the step: it goes on, or it ends in one of the ways
of a stopped request. -/
inductive Gets (c : SchedulerConfig) (mo : ModelOutput α) (drafts : List Int) (r : α)
    (req req' : Request α) : Prop
  | goOn (mid : Request α) (kept : List Int) (stats : Bool)
      (h : (req.settled drafts (mo.sampledTokenIds r)).Takes c mo r mid kept false)
      (heq : req' = { mid with prefillStats := stats })
  | stop (mid last : Request α) (kept : List Int)
      (h : (req.settled drafts (mo.sampledTokenIds r)).Takes c mo r mid kept true)
      (hend : Ends mid last) (heq : req' = { last with prefillStats := false })
  | finish (h : req'.isFinished = true)

end Scheduler

namespace Request
variable {c : SchedulerConfig} {mo : ModelOutput α} {r : α} {req req' : Request α}

section
omit [LinearOrder α]

theorem Takes.resumable {kept : List Int} {stopped : Bool}
    (h : req.Takes c mo r req' kept stopped) : req'.resumable = req.resumable :=
  (takes_spec h).1.resumable

theorem settled_resumable (req : Request α) (drafts generated : List Int) :
    (req.settled drafts generated).resumable = req.resumable := by
  unfold settled
  split <;> rfl

variable {drafts : List Int}

theorem gets_unstopped (hplain : req.resumable = false)
    (h : Gets c mo drafts r req req') (hlive : req'.isFinished = false) :
    ∃ mid kept stats, (req.settled drafts (mo.sampledTokenIds r)).Takes c mo r mid kept false ∧
      req' = { mid with prefillStats := stats } := by
  cases h with
  | goOn mid kept stats h heq => exact ⟨mid, kept, stats, h, heq⟩
  | stop mid last kept h hend heq =>
    have hres : mid.resumable = false := by
      rw [h.resumable, settled_resumable, hplain]
    subst heq
    cases hend with
    | finish hfin => exact absurd (hlive.symm.trans hfin) nofun
    | goOn _ _ hgo => exact absurd (hres.symm.trans hgo) nofun
    | await hgo => exact absurd (hres.symm.trans hgo) nofun
  | finish h => exact absurd (hlive.symm.trans h) nofun

theorem gets_resumable (h : Gets c mo drafts r req req')
    (hlive : req'.isFinished = false) (hres : req'.resumable = true) : req.resumable = true := by
  by_contra hplain
  rw [Bool.not_eq_true] at hplain
  obtain ⟨mid, kept, stats, htakes, rfl⟩ := gets_unstopped hplain h hlive
  have hmid := htakes.resumable
  rw [settled_resumable, hplain] at hmid
  exact Bool.false_ne_true (hmid.symm.trans hres)

end

end Request

namespace Scheduler
variable {c : SchedulerConfig} {mo : ModelOutput α} {s s' : Scheduler α ε} {r : α}
  {kept : List Int} {stopped : Bool}

theorem settle_objs (e : Core α ε) (out : SchedulerOutput α) (mo : ModelOutput α)
    (s : Scheduler α ε) (r : α) :
    (s.settle e out mo r).objs r = (s.objs r).settled
      ((get? out.scheduledSpecDecodeTokens r).getD []) (mo.sampledTokenIds r) := by
  unfold settle Request.settled
  dsimp only
  split_ifs <;> simp

def draftsOf (out : SchedulerOutput α) (r : α) : List Int :=
  (get? out.scheduledSpecDecodeTokens r).getD []

variable {e : Env α ε κ} {out : SchedulerOutput α} {st st' : UpdateLoop α ε κ}
  {scheduled : List (α × Int)}

theorem updateOne_objs (h : updateOne e out mo st r = .ok st') :
    Gets e.toSchedulerConfig mo (draftsOf out r) r (st.sched.objs r) (st'.sched.objs r) ∧
      ∀ x, x ≠ r → st'.sched.objs x = st.sched.objs x ∧
        (x ∈ st'.sched.requests ↔ x ∈ st.sched.requests) := by
  simp only [updateOne, seq_ok_iff] at h
  obtain ⟨⟨s1, kept, stopped⟩, hout, ⟨s2, k⟩, hstop, hst⟩ := h
  cases hst
  obtain ⟨hq0, hother0, -⟩ := settle_ok e.toCore out mo st.sched r
  have hsettled := settle_objs e.toCore out mo st.sched r
  obtain ⟨hq1, hother1, -, req, stopped', htakes, hreq⟩ := applyTokens_takes hout
  rw [hsettled] at htakes
  -- the statistics of the output
  have hemit (P : Prop) [Decidable P] (s : Scheduler α ε) :
      (if P then s.modify r (fun req => { req with prefillStats := false }) else s).requests =
        s.requests ∧
      (∀ x, x ≠ r → (if P then s.modify r (fun req => { req with prefillStats := false })
        else s).objs x = s.objs x) ∧
      (if P then s.modify r (fun req => { req with prefillStats := false }) else s).objs r =
        { s.objs r with prefillStats := if P then false else (s.objs r).prefillStats } := by
    split
    · exact ⟨rfl, fun x hx => modify_objs_of_ne s _ hx, modify_objs_self s r _⟩
    · exact ⟨rfl, fun _ _ => rfl, rfl⟩
  obtain ⟨hreqs, hothers, hself⟩ := hemit (kept ≠ [] ∨ mo.pooled r = true ∨ stopped = true) s2
  cases stopped with
  | false =>
    cases hstop
    obtain ⟨hobj, rfl⟩ : s1.objs r = req ∧ false = stopped' := by
      split at hreq
      · cases hreq.2
      · exact hreq
    refine ⟨?_, fun x hx => ⟨?_, ?_⟩⟩
    · rw [hself, hobj]
      exact .goOn req kept _ htakes rfl
    · rw [hothers x hx, hother1 x hx, hother0 x hx]
    · rw [hreqs, hq1.requests, hq0.requests]
  | true =>
    have hstopped := stopRequest_stopped hstop
    have hends := stopRequest_ends hstop
    refine ⟨?_, fun x hx => ⟨?_, ?_⟩⟩
    · rw [hself, if_pos (.inr (.inr rfl))]
      split at hreq
      · rw [hreq.1] at hends
        cases hends with
        | finish hfin => exact .finish hfin
        | goOn update rest hres => cases hres
        | await hres => cases hres
      · obtain ⟨hobj, rfl⟩ := hreq
        exact .stop req _ kept htakes (hobj ▸ hends) rfl
    · rw [hothers x hx, (hstopped.other x hx).1, hother1 x hx, hother0 x hx]
    · rw [hreqs, (hstopped.other x hx).2, hq1.requests, hq0.requests]

theorem updateLoop_objs {failed : List α} (hnodup : (scheduled.map Prod.fst).Nodup)
    (h : updateLoop e out mo failed st scheduled = .ok st') (x : α) (hlive : st'.sched.Live x) :
    st.sched.Live x ∧ if x ∈ scheduled.map Prod.fst ∧ x ∉ failed then
        Gets e.toSchedulerConfig mo (draftsOf out x) x (st.sched.objs x) (st'.sched.objs x)
      else st'.sched.objs x = st.sched.objs x := by
  induction scheduled generalizing st with
  | nil =>
    cases h
    exact ⟨hlive, by simp⟩
  | cons y ys ih =>
    obtain ⟨r, n⟩ := y
    simp only [updateLoop, seq_ok_iff] at h
    obtain ⟨-, -, mid, hmid, h⟩ := h
    rw [map_cons, nodup_cons] at hnodup
    obtain ⟨hlive', hrest⟩ := ih hnodup.2 h
    by_cases hskip : r ∈ failed ∨ r ∉ st.sched.requests ∨ (st.sched.objs r).isFinished = true
    · rw [if_pos hskip] at hmid
      cases hmid
      refine ⟨hlive', ?_⟩
      have hiff : (x ∈ ((r, n) :: ys).map Prod.fst ∧ x ∉ failed) ↔
          (x ∈ ys.map Prod.fst ∧ x ∉ failed) := by
        refine and_congr_left (fun hf => ?_)
        rw [map_cons, mem_cons]
        refine or_iff_right (fun heq => ?_)
        subst heq
        rcases hskip with hs | hs | hs
        · exact hf hs
        · exact hs hlive'.1
        · exact Bool.false_ne_true (hlive'.2.symm.trans hs)
      rwa [if_congr hiff rfl rfl]
    · rw [if_neg hskip] at hmid
      push Not at hskip
      obtain ⟨hfailed, hmem, hfin⟩ := hskip
      obtain ⟨hgets, hother⟩ := updateOne_objs hmid
      by_cases hx : x = r
      · subst hx
        rw [if_neg (fun hin => hnodup.1 hin.1)] at hrest
        refine ⟨⟨hmem, by simpa using hfin⟩, ?_⟩
        rw [if_pos ⟨by simp, hfailed⟩, hrest]
        exact hgets
      obtain ⟨hobj, hreq⟩ := hother x hx
      refine ⟨⟨hreq.mp hlive'.1, by rw [← hobj]; exact hlive'.2⟩, ?_⟩
      rw [hobj] at hrest
      have hiff : x ∈ ((r, n) :: ys).map Prod.fst ↔ x ∈ ys.map Prod.fst := by
        rw [map_cons, mem_cons, or_iff_right hx]
      rwa [if_congr (and_congr_left (fun _ => hiff)) rfl rfl]

theorem updateLoop_pos {failed : List α} (h : updateLoop e out mo failed st scheduled = .ok st') :
    ∀ y ∈ scheduled, 0 < y.2 := by
  induction scheduled generalizing st with
  | nil => exact fun _ hy => absurd hy not_mem_nil
  | cons y ys ih =>
    simp only [updateLoop, seq_ok_iff, pyAssert_eq_ok] at h
    obtain ⟨-, hpos, mid, -, h⟩ := h
    exact forall_mem_cons.mpr ⟨hpos, ih h⟩

/-! Failed loads and finished transfers. -/

end Scheduler

def ModelOutput.invalidBlockIds (mo : ModelOutput α) : List Nat :=
  (mo.kvConnectorOutput.map KVConnectorOutput.invalidBlockIds).getD []

namespace Scheduler
variable {c : SchedulerConfig} {mo : ModelOutput α} {s s' : Scheduler α ε} {r : α}

/-- A load that failed takes computed tokens back, for a request that runs and is left out of the
update loop, or for one that waits for its load. -/
def Recounts (s : Scheduler α ε) (failed : List α) (x : α) (m : Int) : Prop :=
  m = (s.objs x).numComputedTokens ∨
    (x ∈ s.running ∧ x ∈ failed ∨ (s.objs x).status = .waitingForRemoteKvs) ∧
      m ≤ (s.objs x).numComputedTokens

variable {invalid : List Nat} {scheduled : List (α × Int)} {rs : List α} {s s' : Scheduler α ε}
  {e : Env α ε κ} {connector : Option (α → Bool)} {k k' : κ} {x : α}

theorem scanBlocks_first {n : Nat} {blocks : List (Nat × Nat)} (hblocks : ∀ y ∈ blocks, y.1 < n)
    {marked marked' : List Nat} {affected affected' : Bool} {first first' : Option Nat}
    (hfirst : ∀ i ∈ first, i < n ∧ affected = true)
    (h : scanBlocks invalid blocks marked affected first = (marked', affected', first')) :
    ∀ i ∈ first', i < n ∧ affected' = true := by
  fun_induction scanBlocks with
  | case1 =>
    cases h
    exact hfirst
  | case2 idx b rest marked affected first hvalid ih =>
    exact ih (forall_mem_cons.mp hblocks).2 hfirst h
  | case3 idx b rest marked affected first hvalid hmarked ih =>
    exact ih (forall_mem_cons.mp hblocks).2 (fun i hi => ⟨(hfirst i hi).1, rfl⟩) h
  | case4 idx b rest marked affected first hvalid hmarked ih =>
    obtain ⟨hidx, hrest⟩ := forall_mem_cons.mp hblocks
    refine ih hrest (fun i hi => ⟨?_, rfl⟩) h
    cases hi
    cases first with
    | none => exact hidx
    | some j => exact (hfirst j rfl).1

theorem mul_blockSize_le {blockSize idx : Nat} {computed : Int}
    (h : idx < ((computed + blockSize - 1) / blockSize).toNat) :
    (idx * blockSize : Int) ≤ computed := by
  rcases Nat.eq_zero_or_pos blockSize with h0 | hpos
  · simp [h0] at h
  have hlt : (idx : Int) + 1 ≤ (computed + blockSize - 1) / blockSize := by omega
  have hmul := (Int.le_ediv_iff_mul_le (by omega : (0 : Int) < blockSize)).mp hlt
  have : ((idx : Int) + 1) * blockSize = idx * blockSize + blockSize := by ring
  omega

theorem updateInvalid_recounts {blockSize : Nat}
    (hpos : ∀ x, 0 ≤ (get? scheduled x).getD 0) {marked evict : List Nat} {ids : List α}
    (h : updateInvalid blockSize invalid scheduled s marked rs = .ok (s', ids, evict)) (x : α) :
    ∃ m, s'.objs x = { s.objs x with numComputedTokens := m } ∧
      (m = (s.objs x).numComputedTokens ∨ (x ∈ rs ∧ x ∈ ids) ∧
        m ≤ (s.objs x).numComputedTokens - (get? scheduled x).getD 0) := by
  induction rs generalizing s marked ids evict with
  | nil =>
    cases h
    exact ⟨_, rfl, .inl rfl⟩
  | cons r rs ih =>
    simp only [updateInvalid, seq_ok_iff] at h
    obtain ⟨blocks, -, ⟨s1, ids1, evict1⟩, hrest, h⟩ := h
    generalize hnum : (s.objs r).numComputedTokens - (get? scheduled r).getD 0 = num
      at hrest h
    generalize hscan : scanBlocks invalid ((range
      ((num + blockSize - 1) / blockSize).toNat).zip blocks) marked false none = scan at hrest h
    obtain ⟨marked', affected, first⟩ := scan
    obtain ⟨rfl, hret⟩ := Prod.mk.inj (Except.ok.inj h)
    obtain ⟨rfl, -⟩ := Prod.mk.inj hret
    have hfirst := scanBlocks_first (n := ((num + blockSize - 1) / blockSize).toNat)
      (fun y hy => mem_range.mp (of_mem_zip hy).1) (by simp) hscan
    have hdone {s2 : Scheduler α ε} {m2 : Int}
        (hrest : updateInvalid blockSize invalid scheduled s2 marked' rs = .ok (s1, ids1, evict1))
        (hobj2 : s2.objs x = { s.objs x with numComputedTokens := m2 })
        (hm2 : m2 = (s.objs x).numComputedTokens ∨ (x = r ∧ affected = true) ∧ m2 ≤ num) :
        ∃ m, s1.objs x = { s.objs x with numComputedTokens := m } ∧
          (m = (s.objs x).numComputedTokens ∨
            (x ∈ r :: rs ∧ x ∈ if affected = true then r :: ids1 else ids1) ∧
              m ≤ (s.objs x).numComputedTokens - (get? scheduled x).getD 0) := by
      obtain ⟨m, hobj, hm⟩ := ih hrest
      rw [hobj2] at hobj hm
      refine ⟨m, hobj, ?_⟩
      have hn := hpos x
      dsimp only at hm
      rcases hm with rfl | ⟨⟨hmem, hids⟩, hle⟩
      · rcases hm2 with h2 | ⟨⟨rfl, haff⟩, hle⟩
        · exact .inl h2
        · exact .inr ⟨⟨mem_cons_self, by simp [haff]⟩, by omega⟩
      refine .inr ⟨⟨mem_cons_of_mem _ hmem, ?_⟩, ?_⟩
      · split
        · exact mem_cons_of_mem _ hids
        · exact hids
      · rcases hm2 with h2 | ⟨⟨rfl, -⟩, hle2⟩ <;> omega
    -- what this round does to `x`
    have hset (m : Int) (hm : m ≤ num) (haff : affected = true) : ∃ m2,
        (s.modify r (fun req => { req with numComputedTokens := m })).objs x =
          { s.objs x with numComputedTokens := m2 } ∧
        (m2 = (s.objs x).numComputedTokens ∨ (x = r ∧ affected = true) ∧ m2 ≤ num) := by
      by_cases hx : x = r
      · subst hx
        exact ⟨m, modify_objs_self s x _, .inr ⟨⟨rfl, haff⟩, hm⟩⟩
      · exact ⟨_, modify_objs_of_ne s _ hx, .inl rfl⟩
    cases first with
    | some idx =>
      obtain ⟨hidx, haff⟩ := hfirst idx rfl
      obtain ⟨m2, hobj2, hm2⟩ := hset (idx * blockSize) (mul_blockSize_le hidx) haff
      exact hdone hrest hobj2 hm2
    | none =>
      cases affected with
      | true =>
        obtain ⟨m2, hobj2, hm2⟩ := hset num le_rfl rfl
        exact hdone hrest hobj2 hm2
      | false => exact hdone hrest rfl (.inl rfl)

theorem handleInvalidBlocks_recounts (hpos : ∀ x, 0 ≤ (get? scheduled x).getD 0)
    {failed : List α} (h : s.handleInvalidBlocks c invalid scheduled = .ok (s', failed)) (x : α) :
    ∃ m, s'.objs x = { s.objs x with numComputedTokens := m } ∧ s.Recounts failed x m := by
  simp only [handleInvalidBlocks, seq_ok_iff] at h
  obtain ⟨⟨s1, asyncIds, evict1⟩, hasync, ⟨s2, syncIds, evict2⟩, hsync, h⟩ := h
  obtain ⟨hobjs, hids⟩ : s'.objs = s2.objs ∧ (x ∈ syncIds → x ∈ failed) := by
    dsimp only at h
    split at h
    · rename_i hnone
      cases h
      exact ⟨rfl, fun hx => by rwa [hnone.2] at hx⟩
    split at h
    · cases h
      exact ⟨rfl, id⟩
    rw [seq_ok_iff] at h
    obtain ⟨kv, -, h⟩ := h
    cases h
    exact ⟨rfl, mem_append_right _⟩
  have hrunning := (updateInvalid_counts hasync).1.queues.running
  obtain ⟨m1, hobj1, hm1⟩ := updateInvalid_recounts hpos hasync x
  obtain ⟨m2, hobj2, hm2⟩ := updateInvalid_recounts hpos hsync x
  rw [hobj1] at hobj2 hm2
  refine ⟨m2, by rw [hobjs, hobj2], ?_⟩
  have hn := hpos x
  have hwhich : m1 = (s.objs x).numComputedTokens ∨
      (s.objs x).status = .waitingForRemoteKvs ∧
        m1 ≤ (s.objs x).numComputedTokens - (get? scheduled x).getD 0 :=
    hm1.imp_right (fun hm => ⟨by simpa using (mem_filter.mp hm.1.1).2, hm.2⟩)
  rcases hm2 with h2 | ⟨⟨hmem, hx⟩, hle⟩
  · rcases hwhich with h1 | ⟨hs, h1⟩
    · exact .inl (h2.trans h1)
    · exact .inr ⟨.inr hs, by rw [h2]; dsimp only; omega⟩
  rw [hrunning] at hmem
  refine .inr ⟨.inl ⟨hmem, hids hx⟩, ?_⟩
  dsimp only at hle
  rcases hwhich with h1 | ⟨-, h1⟩ <;> omega

theorem finishRequests_objs {now : ℚ} {ids : Option (List α)} {status : RequestStatus}
    (h : finishRequests e connector now s k ids status = .ok (s', k')) (hlive : s'.Live x) :
    s.Live x ∧ s'.objs x = s.objs x := by
  simp only [finishRequests, seq_ok_iff, pyAssert_eq_ok] at h
  obtain ⟨-, hstatus, h⟩ := h
  obtain ⟨-, -, -, hfin, hother⟩ := finishAll_ok hstatus h
  have hx : x ∉ s.validRequests ids := fun hx =>
    Bool.false_ne_true (hlive.2.symm.trans (hfin x hx))
  obtain ⟨hobj, hreq⟩ := hother x hx
  have hobj' : s'.objs x = s.objs x := hobj
  exact ⟨⟨hreq.mp hlive.1, by rw [← hobj']; exact hlive.2⟩, hobj'⟩

omit [LinearOrder α] in
theorem Freed.live (hf : Freed s s' r) (hlive : s'.Live x) : s.Live x ∧ s'.objs x = s.objs x := by
  have hfin : (s.objs x).isFinished = false := by
    rw [← hf.objs]
    exact hlive.2
  have hx : x ≠ r := by
    rintro rfl
    exact Bool.false_ne_true (hfin.symm.trans hf.finished)
  exact ⟨⟨(hf.requests x hx).mp hlive.1, hfin⟩, by rw [hf.objs]⟩

theorem finishTransfers_objs {failed : List α} (h : finishTransfers e mo failed s k = .ok (s', k'))
    (hlive : s'.Live x) : s.Live x ∧ s'.objs x = s.objs x := by
  simp only [finishTransfers, seq_ok_iff] at h
  obtain ⟨⟨s1, k1⟩, hfin, s2, hrecv, s3, hsend, h⟩ := h
  cases h
  obtain ⟨hlive1, hobj1⟩ := transfers_keep
    (P := fun t => t.Live x → s1.Live x ∧ t.objs x = s1.objs x) (fun _ _ h => h)
    (fun t t' r hfree h hlive => by
      obtain ⟨hl, ho⟩ := (freeBlocks_freed hfree).live hlive
      exact ⟨(h hl).1, ho.trans (h hl).2⟩)
    (fun hlive => ⟨hlive, rfl⟩) hrecv hsend hlive
  split at hfin
  · obtain ⟨hl, ho⟩ := finishRequests_objs hfin hlive1
    exact ⟨hl, hobj1.trans ho⟩
  · cases hfin
    exact ⟨hlive1, hobj1⟩

/-! The calls as a whole. -/

theorem updateFromOutput_objs {out : SchedulerOutput α} {outputs : List (EngineCoreOutput α)}
    (hnodup : (out.numScheduledTokens.map Prod.fst).Nodup)
    (h : s.updateFromOutput e out mo k = .ok (s', k', outputs)) (hlive : s'.Live x) :
    ∃ failed m, s.Live x ∧ s.Recounts failed x m ∧
      (mo.invalidBlockIds = [] → failed = [] ∧ m = (s.objs x).numComputedTokens) ∧
      if x ∈ out.numScheduledTokens.map Prod.fst ∧ x ∉ failed then
        Gets e.toSchedulerConfig mo (draftsOf out x) x
          { s.objs x with numComputedTokens := m } (s'.objs x)
      else s'.objs x = { s.objs x with numComputedTokens := m } := by
  simp only [updateFromOutput, seq_ok_iff] at h
  obtain ⟨⟨s1, failed⟩, hfailed, st, hst, ⟨s2, k2⟩, hend, h⟩ := h
  cases h
  obtain ⟨hlive2, hobj2⟩ := finishTransfers_objs hend hlive
  have hlive2' : st.sched.Live x := hlive2
  obtain ⟨hlive1, hloop⟩ := updateLoop_objs hnodup hst x hlive2'
  have hpos (y : α) : 0 ≤ (get? out.numScheduledTokens y).getD 0 := by
    cases hy : get? out.numScheduledTokens y with
    | none => exact le_rfl
    | some n => exact (updateLoop_pos hst _ ((mem_iff_get? hnodup).mpr hy)).le
  obtain ⟨m, hobj1, hm, hquiet⟩ : ∃ m, s1.objs x = { s.objs x with numComputedTokens := m } ∧
      s.Recounts failed x m ∧
      (mo.invalidBlockIds = [] → failed = [] ∧ m = (s.objs x).numComputedTokens) := by
    split at hfailed
    · rename_i hne
      obtain ⟨m, hobj, hm⟩ := handleInvalidBlocks_recounts hpos hfailed x
      exact ⟨m, hobj, hm, fun hnil => absurd hnil hne⟩
    · cases hfailed
      exact ⟨_, rfl, .inl rfl, fun _ => ⟨rfl, rfl⟩⟩
  have hrequests : s1.requests = s.requests := by
    split at hfailed
    · exact (handleInvalidBlocks_counts hfailed).1.queues.requests
    · cases hfailed
      rfl
  refine ⟨failed, m, ⟨?_, ?_⟩, hm, hquiet, ?_⟩
  · rw [← hrequests]
    exact hlive1.1
  · have hfin := hlive1.2
    rw [hobj1] at hfin
    exact hfin
  · rw [hobj1] at hloop
    rw [hobj2]
    exact hloop

/-- What `add_request` does to a request that is live afterwards. -/
inductive Adds (s s' : Scheduler α ε) (req : Request α) (x : α) : Prop
  | same (hlive : s.Live x) (hobj : s'.objs x = s.objs x)
      (hother : x ≠ req.requestId ∨ req.toStreamingUpdate = none)
  | fresh (hx : x = req.requestId) (hnew : x ∉ s.requests)
      (hobj : s'.objs x = if req.resumable then { req with streamingQueue := some [] } else req)
  | queued (hx : x = req.requestId) (hlive : s.Live x) (q : List (Option StreamingUpdate))
      (hstatus : (s.objs x).status ≠ .waitingForStreamingReq)
      (hobj : s'.objs x = { s.objs x with streamingQueue := some (q ++ [req.toStreamingUpdate]) })
  | resumed (hx : x = req.requestId) (hlive : s.Live x) (update : StreamingUpdate)
      (hstatus : (s.objs x).status = .waitingForStreamingReq)
      (hupdate : req.toStreamingUpdate = some update)
      (hobj : s'.objs x = (s.objs x).updateAsSession update)

theorem addRequest_adds {now : ℚ} {req : Request α}
    (h : s.addRequest e connector now k req = .ok (s', k')) (hlive : s'.Live x) :
    Adds s s' req x := by
  unfold addRequest at h
  by_cases hr : req.requestId ∈ s.requests
  · rw [if_pos hr] at h
    by_cases hwait : (s.objs req.requestId).status ≠ .waitingForStreamingReq
    · rw [if_pos hwait] at h
      split at h
      · cases h
      rename_i q hq
      cases h
      by_cases hx : x = req.requestId
      · subst hx
        refine .queued rfl ⟨hr, ?_⟩ q hwait (modify_objs_self s _ _)
        have hfin := hlive.2
        rw [modify_objs_self] at hfin
        exact hfin
      · have hobj := modify_objs_of_ne s (fun existing => { existing with
          streamingQueue := some (q ++ [req.toStreamingUpdate]) }) hx
        exact .same ⟨hlive.1, by rw [← hobj]; exact hlive.2⟩ hobj (.inl hx)
    · rw [if_neg hwait] at h
      rw [not_not] at hwait
      split at h
      · rename_i update hupdate
        cases h
        have hobjs : (s.updateRequestAsSession req.requestId update).objs x =
            if x = req.requestId then (s.objs x).updateAsSession update else s.objs x := rfl
        by_cases hx : x = req.requestId
        · rw [if_pos hx] at hobjs
          refine .resumed hx ⟨hx ▸ hr, ?_⟩ update (hx ▸ hwait) hupdate hobjs
          rw [Request.isFinished, hx, hwait]
          rfl
        · have hobj := hobjs.trans (if_neg hx)
          exact .same ⟨hlive.1, by rw [← hobj]; exact hlive.2⟩ hobj (.inl hx)
      · rename_i hnone
        obtain ⟨hl, ho⟩ := finishRequests_objs h hlive
        exact .same hl ho (.inr hnone)
  · rw [if_neg hr] at h
    cases h
    generalize hreq : (if req.resumable = true then { req with streamingQueue := some [] }
      else req) = req' at hlive
    obtain ⟨-, hobjs, hrequests⟩ :=
      enqueueWaitingRequest_rest e.policy (s.modify req.requestId (fun _ => req')) req.requestId
    have hobj (y : α) : ((s.modify req.requestId (fun _ => req')).enqueueWaitingRequest e.policy
        req.requestId).objs y = if y = req.requestId then req' else s.objs y := by
      rw [hobjs]
      rfl
    by_cases hx : x = req.requestId
    · refine .fresh hx (hx ▸ hr) ?_
      rw [hreq]
      exact (hobj x).trans (if_pos hx)
    have hsame := (hobj x).trans (if_neg hx)
    refine .same ⟨?_, ?_⟩ ?_ (.inl hx)
    · have hmem := hlive.1
      rw [hrequests, mem_append, mem_singleton, or_iff_left hx] at hmem
      exact hmem
    · rw [← hsame]
      exact hlive.2
    · exact hsame

/-- A request that is preempted by `reset_prefix_cache`: the output in flight is discarded. -/
def forced (req : Request α) : Request α :=
  { req.preempt with numOutputPlaceholders := 0, discardLatestAsyncTokens := true }

theorem preemptAll_objs {e : Core α ε} {fuel : Nat} (hnodup : s.running.Nodup)
    (hfuel : s.running.length ≤ fuel) (h : s.preemptAll e fuel = .ok s') (x : α) :
    s'.objs x = if x ∈ s.running then forced (s.objs x) else s.objs x := by
  induction fuel generalizing s with
  | zero =>
    cases h
    rw [length_eq_zero_iff.mp (Nat.le_zero.mp hfuel)]
    simp
  | succ fuel ih =>
    unfold preemptAll at h
    cases hlast : s.running.getLast? with
    | none =>
      simp only [hlast] at h
      cases h
      rw [getLast?_eq_none_iff.mp hlast]
      simp
    | some r =>
      simp only [hlast, seq_ok_iff] at h
      obtain ⟨s1, hpre, h⟩ := h
      obtain ⟨-, rfl⟩ := preemptRequest_ok hpre
      have hsplit : s.running.dropLast ++ [r] = s.running := dropLast_append_getLast? r hlast
      generalize hs2 : ({ s with running := s.running.dropLast }.preempted e r).modify r
        (fun req => { req with numOutputPlaceholders := 0, discardLatestAsyncTokens := true }) =
          s2 at h
      have hrunning : s2.running = s.running.dropLast := by
        subst hs2
        rfl
      have hobj : s2.objs x = if x = r then forced (s.objs x) else s.objs x := by
        subst hs2
        by_cases hx : x = r
        · simp [preempted, hx, forced]
        · simp [preempted, hx]
      have hnd : (s.running.dropLast ++ [r]).Nodup := by rwa [hsplit]
      rw [nodup_append] at hnd
      rw [ih (by rw [hrunning]; exact hnd.1) (by rw [hrunning, length_dropLast]; omega) h,
        hrunning, hobj]
      by_cases hx : x = r
      · have hout : x ∉ s.running.dropLast := fun hin => hnd.2.2 x hin r (by simp) hx
        have hin : x ∈ s.running := by
          rw [← hsplit, hx]
          simp
        rw [if_neg hout, if_pos hx, if_pos hin]
      · have hiff : x ∈ s.running ↔ x ∈ s.running.dropLast := by
          rw [← hsplit, mem_append, mem_singleton, or_iff_left hx, hsplit]
        rw [if_neg hx, if_congr hiff rfl rfl]

theorem resetPrefixCache_objs {e : Core α ε} {reset ok : Bool} (hnodup : s.running.Nodup)
    (h : s.resetPrefixCache e reset = .ok (s', ok)) (x : α) :
    s'.requests = s.requests ∧
    s'.objs x = if reset = true ∧ x ∈ s.running then forced (s.objs x) else s.objs x := by
  simp only [resetPrefixCache, seq_ok_iff] at h
  obtain ⟨s1, hs1, h⟩ := h
  obtain ⟨hreq, hobj⟩ : s1.requests = s.requests ∧ s1.objs x =
      if reset = true ∧ x ∈ s.running then forced (s.objs x) else s.objs x := by
    by_cases hreset : reset = true
    · rw [if_pos hreset] at hs1
      simp only [preemptRunning, seq_ok_iff] at hs1
      obtain ⟨s2, hs2, hs1⟩ := hs1
      cases hs1
      have hreq : s2.requests = s.requests :=
        preemptAll_keeps (P := fun t => t.requests = s.requests) (fun _ _ _ h => h) rfl hs2
      refine ⟨hreq, ?_⟩
      rw [if_congr (and_iff_right hreset) rfl rfl]
      exact preemptAll_objs hnodup le_rfl hs2 x
    · rw [if_neg hreset] at hs1
      cases hs1
      exact ⟨rfl, by rw [if_neg (fun hr => hreset hr.1)]⟩
  split at h
  · cases h
  · cases h
    exact ⟨hreq, hobj⟩

theorem updateDraftTokenIds_objs (s : Scheduler α ε) (drafts : List (α × List Int)) (x : α) :
    (s.updateDraftTokenIds drafts).requests = s.requests ∧
    ∃ spec, (s.updateDraftTokenIds drafts).objs x = { s.objs x with specTokenIds := spec } ∧
      (spec = (s.objs x).specTokenIds ∨ spec = [] ∨ (x, spec) ∈ drafts) := by
  unfold updateDraftTokenIds
  induction drafts generalizing s with
  | nil => exact ⟨rfl, _, rfl, .inl rfl⟩
  | cons d drafts ih =>
    rw [foldl_cons]
    by_cases hskip : d.1 ∉ s.requests ∨ (s.objs d.1).isFinished = true
    · rw [if_pos hskip]
      obtain ⟨hreq, spec, hobj, hspec⟩ := ih s
      exact ⟨hreq, spec, hobj, hspec.imp_right (.imp_right (mem_cons_of_mem _))⟩
    rw [if_neg hskip]
    generalize hs1 : s.modify d.1 (fun req => { req with
      specTokenIds := if req.isPrefillChunk then [] else d.2 }) = s1
    obtain ⟨hreq, spec, hobj, hspec⟩ := ih s1
    have hfirst : ∃ spec1, s1.objs x = { s.objs x with specTokenIds := spec1 } ∧
        (spec1 = (s.objs x).specTokenIds ∨ spec1 = [] ∨ (x, spec1) ∈ d :: drafts) := by
      subst hs1
      by_cases hx : x = d.1
      · subst hx
        refine ⟨_, modify_objs_self s _ _, ?_⟩
        split
        · exact .inr (.inl rfl)
        · exact .inr (.inr (mem_cons_self))
      · exact ⟨_, modify_objs_of_ne s _ hx, .inl rfl⟩
    obtain ⟨spec1, hobj1, hspec1⟩ := hfirst
    rw [hobj1] at hobj hspec
    refine ⟨hreq.trans (by subst hs1; rfl), spec, hobj, ?_⟩
    rcases hspec with rfl | h | h
    · exact hspec1
    · exact .inr (.inl h)
    · exact .inr (.inr (mem_cons_of_mem _ h))

end Scheduler

/-! One event of a run. -/

namespace System

/-- What an event does to a request that is live afterwards. -/
inductive Effect (c : SchedulerConfig) (sys sys' : System α ε κ) (x : α) : Event α → Prop
  | added (args : Request.Args α) (connector : Option (α → Bool)) (now : ℚ)
      (hin : sys'.inFlight = sys.inFlight)
      (h : Adds sys.sched sys'.sched (.new args) x) :
      Effect c sys sys' x (.addRequest args connector now)
  | scheduled (inp : ScheduleInput α) (out : SchedulerOutput α)
      (hin : sys'.inFlight = sys.inFlight ++ [out]) (hlive : sys.sched.Live x)
      (h : Treats c sys.sched sys'.sched out x) : Effect c sys sys' x (.schedule inp)
  | output (mo : ModelOutput α) (out : SchedulerOutput α) (failed : List α) (m : Int)
      (hin : sys.inFlight = out :: sys'.inFlight) (hlive : sys.sched.Live x)
      (hm : sys.sched.Recounts failed x m)
      (hquiet : mo.invalidBlockIds = [] →
        failed = [] ∧ m = (sys.sched.objs x).numComputedTokens)
      (h : if x ∈ out.numScheduledTokens.map Prod.fst ∧ x ∉ failed then
          Gets c mo (draftsOf out x) x
            { sys.sched.objs x with numComputedTokens := m } (sys'.sched.objs x)
        else sys'.sched.objs x = { sys.sched.objs x with numComputedTokens := m }) :
      Effect c sys sys' x (.updateFromOutput mo)
  | noOutput (mo : ModelOutput α) (hin : sys.inFlight = []) (hsame : sys' = sys) :
      Effect c sys sys' x (.updateFromOutput mo)
  | drafted (drafts : List (α × List Int)) (spec : List Int) (hin : sys'.inFlight = sys.inFlight)
      (hlive : sys.sched.Live x)
      (hobj : sys'.sched.objs x = { sys.sched.objs x with specTokenIds := spec })
      (hspec : spec = (sys.sched.objs x).specTokenIds ∨ spec = [] ∨ (x, spec) ∈ drafts) :
      Effect c sys sys' x (.updateDraftTokenIds drafts)
  | spared (ids : Option (List α)) (status : RequestStatus) (connector : Option (α → Bool))
      (now : ℚ) (hin : sys'.inFlight = sys.inFlight) (hlive : sys.sched.Live x)
      (hobj : sys'.sched.objs x = sys.sched.objs x) :
      Effect c sys sys' x (.finishRequests ids status connector now)
  | reset (flag : Bool) (hin : sys'.inFlight = sys.inFlight) (hlive : sys.sched.Live x)
      (hobj : sys'.sched.objs x = if flag = true ∧ x ∈ sys.sched.running then
        forced (sys.sched.objs x) else sys.sched.objs x) :
      Effect c sys sys' x (.resetPrefixCache flag)
  | paused (state : PauseState) (hin : sys'.inFlight = sys.inFlight) (hlive : sys.sched.Live x)
      (hobj : sys'.sched.objs x = sys.sched.objs x) : Effect c sys sys' x (.setPauseState state)

theorem step_effect {e : Env α ε κ} (hmodest : e.enc.Modest) {sys sys' : System α ε κ}
    {ev : Event α} (hc : sys.Conserves) (hstep : sys.step e ev = .ok sys') {x : α}
    (hlive : sys'.sched.Live x) : Effect e.toSchedulerConfig sys sys' x ev := by
  cases ev with
  | addRequest args connector now =>
    simp only [step, seq_ok_iff] at hstep
    obtain ⟨⟨s, k⟩, hs, hstep⟩ := hstep
    cases hstep
    exact .added args connector now rfl (addRequest_adds hs hlive)
  | schedule inp =>
    simp only [step, seq_ok_iff] at hstep
    obtain ⟨⟨s, k, out⟩, hs, hstep⟩ := hstep
    cases hstep
    have htreats := schedule_treats hmodest hc.sched hs x
    refine .scheduled inp out rfl ⟨?_, htreats.unfinished hc.sched hlive.2⟩ htreats
    rw [← schedule_requests hs]
    exact hlive.1
  | updateFromOutput mo =>
    cases hin : sys.inFlight with
    | nil =>
      simp only [step, hin] at hstep
      cases hstep
      exact .noOutput mo hin rfl
    | cons out rest =>
      simp only [step, hin, seq_ok_iff] at hstep
      obtain ⟨⟨s, k, outputs⟩, hs, hstep⟩ := hstep
      cases hstep
      have hnodup := hc.inFlight out (by rw [hin]; exact mem_cons_self)
      obtain ⟨failed, m, hlive0, hm, hquiet, h⟩ := updateFromOutput_objs hnodup hs hlive
      exact .output mo out failed m hin hlive0 hm hquiet h
  | updateDraftTokenIds drafts =>
    cases hstep
    obtain ⟨hreq, spec, hobj, hspec⟩ := updateDraftTokenIds_objs sys.sched drafts x
    refine .drafted drafts spec rfl ⟨?_, ?_⟩ hobj hspec
    · rw [← hreq]
      exact hlive.1
    have hfin := hlive.2
    rw [hobj] at hfin
    exact hfin
  | finishRequests ids status connector now =>
    simp only [step, seq_ok_iff] at hstep
    obtain ⟨⟨s, k⟩, hs, hstep⟩ := hstep
    cases hstep
    obtain ⟨hlive0, hobj⟩ := finishRequests_objs hs hlive
    exact .spared ids status connector now rfl hlive0 hobj
  | resetPrefixCache flag =>
    simp only [step, seq_ok_iff] at hstep
    obtain ⟨⟨s, ok⟩, hs, hstep⟩ := hstep
    cases hstep
    obtain ⟨hreq, hobj⟩ := resetPrefixCache_objs (Tally.nodup_active hc.sched) hs x
    refine .reset flag rfl ⟨?_, ?_⟩ hobj
    · rw [← hreq]
      exact hlive.1
    by_cases hrun : flag = true ∧ x ∈ sys.sched.running
    · exact (Tally.live_of_mem hc.sched (.inl hrun.2)).2
    have hfin := hlive.2
    rw [hobj, if_neg hrun] at hfin
    exact hfin
  | setPauseState state =>
    cases hstep
    exact .paused state rfl hlive rfl

end System

/-! Only new requests, new chunks and outputs change the tokens of a request. -/

structure Request.SameTokens (req req' : Request α) : Prop where
  all : req'.allTokenIds = req.allTokenIds
  output : req'.outputTokenIds = req.outputTokenIds
  prompt : req'.promptTokenIds = req.promptTokenIds
  numPrompt : req'.numPromptTokens = req.numPromptTokens
  sampling : req'.samplingParams = req.samplingParams
  resumable : req'.resumable = req.resumable
  queue : req'.streamingQueue = req.streamingQueue

section
omit [LinearOrder α]

theorem Request.SameTokens.trans {a b c : Request α} (h : a.SameTokens b) (h' : b.SameTokens c) :
    a.SameTokens c :=
  ⟨h'.all.trans h.all, h'.output.trans h.output, h'.prompt.trans h.prompt,
    h'.numPrompt.trans h.numPrompt, h'.sampling.trans h.sampling, h'.resumable.trans h.resumable,
    h'.queue.trans h.queue⟩

theorem Request.Promoted.sameTokens {req req' : Request α} (h : req.Promoted req') :
    req.SameTokens req' := by
  obtain ⟨-, _, _, rfl, -⟩ := h
  exact ⟨rfl, rfl, rfl, rfl, rfl, rfl, rfl⟩

theorem Request.settled_sameTokens (req : Request α) (drafts generated : List Int) :
    req.SameTokens (req.settled drafts generated) := by
  unfold Request.settled
  split <;> exact ⟨rfl, rfl, rfl, rfl, rfl, rfl, rfl⟩

theorem Scheduler.advance_sameTokens (c : SchedulerConfig) (n : Int) (drafts : Nat)
    (req : Request α) : req.SameTokens (advance c n drafts req) := by
  unfold advance
  dsimp only
  split <;> exact ⟨rfl, rfl, rfl, rfl, rfl, rfl, rfl⟩

end

theorem Scheduler.Treats.sameTokens {s s' : Scheduler α ε} {out : SchedulerOutput α} {x : α}
    (h : Treats c s s' out x) : (s.objs x).SameTokens (s'.objs x) := by
  have hbase {base : Request α} (hb : base = s.objs x ∨ (s.objs x).Promoted base) :
      (s.objs x).SameTokens base := by
    rcases hb with rfl | hb
    · exact ⟨rfl, rfl, rfl, rfl, rfl, rfl, rfl⟩
    · exact hb.sameTokens
  cases h with
  | untouched hobj =>
    rw [hobj]
    exact ⟨rfl, rfl, rfl, rfl, rfl, rfl, rfl⟩
  | ran n hrun hn hle hkey hspec hobj =>
    rw [hobj]
    refine .trans ?_ (advance_sameTokens c n _ _)
    exact ⟨rfl, rfl, rfl, rfl, rfl, rfl, rfl⟩
  | preempted hrun hobj =>
    rw [hobj]
    exact ⟨rfl, rfl, rfl, rfl, rfl, rfl, rfl⟩
  | promoted hready => exact hready.sameTokens
  | loading base m hb hidle hzero hm hobj =>
    rw [hobj]
    exact (hbase hb).trans ⟨rfl, rfl, rfl, rfl, rfl, rfl, rfl⟩
  | started base m n hb hstatus hm hn hkey hspec hobj =>
    rw [hobj]
    refine (hbase hb).trans (.trans ?_ (advance_sameTokens c n 0 _))
    exact ⟨rfl, rfl, rfl, rfl, rfl, rfl, rfl⟩

/-- The calls that leave the tokens of every live request alone. -/
def Event.quiet : Event α → Bool
  | .addRequest _ _ _ | .updateFromOutput _ => false
  | _ => true

theorem System.Effect.sameTokens {sys sys' : System α ε κ} {x : α} {ev : Event α}
    (h : Effect c sys sys' x ev) (hev : ev.quiet = true) :
    sys.sched.Live x ∧ (sys.sched.objs x).SameTokens (sys'.sched.objs x) := by
  cases h with
  | added => cases hev
  | output => cases hev
  | noOutput => cases hev
  | scheduled inp out hin hlive htreats => exact ⟨hlive, htreats.sameTokens⟩
  | drafted drafts spec hin hlive hobj =>
    rw [hobj]
    exact ⟨hlive, rfl, rfl, rfl, rfl, rfl, rfl, rfl⟩
  | spared ids status connector now hin hlive hobj =>
    rw [hobj]
    exact ⟨hlive, rfl, rfl, rfl, rfl, rfl, rfl, rfl⟩
  | reset flag hin hlive hobj =>
    rw [hobj]
    split <;> exact ⟨hlive, rfl, rfl, rfl, rfl, rfl, rfl, rfl⟩
  | paused state hin hlive hobj =>
    rw [hobj]
    exact ⟨hlive, rfl, rfl, rfl, rfl, rfl, rfl, rfl⟩

end TailBlend
