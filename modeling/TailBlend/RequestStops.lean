import TailBlend.RequestCalls

/-! What `update_from_output` does with the output of one request: which outputs stop it, and
where a stopped request goes. -/
namespace TailBlend

namespace Request
variable {α : Type} {status : RequestStatus} {maxModelLen : Int}

def withCounts (req : Request α) (computed placeholders : Int) : Request α :=
  { req with numComputedTokens := computed, numOutputPlaceholders := placeholders }

section
variable (req : Request α)
include req

theorem hashBlocks_withCounts (a b : Int) (blockSize n start : Nat)
    (prev : BlockHash) (mmIdx : Int) :
    (req.withCounts a b).hashBlocks blockSize n start prev mmIdx =
      req.hashBlocks blockSize n start prev mmIdx := by
  induction n generalizing start prev mmIdx with
  | zero => rfl
  | succ n ih => exact congrArg₂ List.cons rfl (ih _ _ _)

theorem updateBlockHashes_withCounts (a b : Int) :
    (req.withCounts a b).updateBlockHashes = req.updateBlockHashes.withCounts a b := by
  have hnew (blockSize : Nat) :
      (req.withCounts a b).newBlockHashes blockSize = req.newBlockHashes blockSize :=
    hashBlocks_withCounts req a b blockSize _ _ _ _
  unfold updateBlockHashes
  simp only [hnew]
  cases hh : req.hashBlockSize <;> simp [withCounts, hh]

theorem appendOutputTokenId_withCounts (a b : Int) (now : ℚ) (token : Int) :
    (req.withCounts a b).appendOutputTokenId now token =
      (req.appendOutputTokenId now token).withCounts a b := by
  exact updateBlockHashes_withCounts (req.pushTokens now [token]) a b

theorem updateWithOutput_withCounts (a b maxModelLen : Int) (now : ℚ)
    (tokens : List Int) :
    (req.withCounts a b).updateWithOutput maxModelLen now tokens =
      (req.updateWithOutput maxModelLen now tokens).map (fun x => (x.1.withCounts a b, x.2)) := by
  induction tokens generalizing req with
  | nil => rfl
  | cons token tokens ih =>
    simp only [updateWithOutput]
    rw [appendOutputTokenId_withCounts]
    have hcheck : ((req.appendOutputTokenId now token).withCounts a b).checkStop maxModelLen =
        (req.appendOutputTokenId now token).checkStop maxModelLen := rfl
    rw [hcheck, ih]
    cases (req.appendOutputTokenId now token).checkStop maxModelLen with
    | error err => rfl
    | ok stop =>
      cases stop with
      | some status => rfl
      | none =>
        cases (req.appendOutputTokenId now token).updateWithOutput maxModelLen now tokens <;> rfl

end

theorem checkStop_finished {req : Request α}
    (h : req.checkStop maxModelLen = .ok (some status)) : status.isFinished = true := by
  simp only [checkStop, seq_ok_iff] at h
  obtain ⟨-, -, h⟩ := h
  cases hsp : req.samplingParams with
  | none =>
    simp only [hsp] at h
    cases h
  | some sp =>
    simp only [hsp] at h
    by_cases hmin : req.numOutputTokens < sp.minTokens
    · rw [if_pos hmin] at h
      cases h
    rw [if_neg hmin] at h
    cases hlast : req.outputTokenIds.getLast? with
    | none =>
      simp only [hlast] at h
      cases h
    | some last =>
      simp only [hlast] at h
      split at h
      · cases h
        rfl
      split at h
      · cases h
        rfl
      split at h
      · cases h
        rfl
      split at h
      · cases h
        rfl
      · cases h

/-- New tokens change the tokens, what is derived from them, and the status. -/
structure Appends (req req' : Request α) (kept : List Int) (status : RequestStatus) : Prop where
  eq : ∃ prob time hashes, req' = { req with
    outputTokenIds := req.outputTokenIds ++ kept
    allTokenIds := req.allTokenIds ++ kept
    probShort := prob
    taperLastTokenTime := time
    blockHashes := hashes
    status := status }

variable {req req' : Request α} {kept : List Int}

theorem Appends.numTokens (h : req.Appends req' kept status) :
    req'.numTokens = req.numTokens + kept.length := by
  obtain ⟨prob, time, hashes, rfl⟩ := h.eq
  unfold Request.numTokens
  rw [List.length_append, Nat.cast_add]

theorem appendOutputTokenId_appends (req : Request α) (now : ℚ) (token : Int) :
    req.Appends (req.appendOutputTokenId now token) [token] req.status := by
  unfold appendOutputTokenId appendOutputTokenIds updateBlockHashes
  split <;> exact ⟨_, _, _, rfl⟩

theorem updateWithOutput_appends {now : ℚ} {tokens : List Int} {stopped : Bool}
    (h : req.updateWithOutput maxModelLen now tokens = .ok (req', kept, stopped)) :
    req.Appends req' kept req'.status ∧
      (stopped = false → kept = tokens ∧ req'.status = req.status) ∧
      (stopped = true → req'.isFinished = true) := by
  induction tokens generalizing req kept with
  | nil =>
    obtain ⟨rfl, rfl, rfl⟩ : req = req' ∧ [] = kept ∧ false = stopped := by
      simpa [updateWithOutput] using h
    exact ⟨⟨req.probShort, req.taperLastTokenTime, req.blockHashes, by simp⟩,
      fun _ => ⟨rfl, rfl⟩, nofun⟩
  | cons token tokens ih =>
    obtain ⟨prob, time, hashes, hfirst⟩ := (req.appendOutputTokenId_appends now token).eq
    simp only [updateWithOutput, seq_ok_iff] at h
    obtain ⟨stop, hstop, h⟩ := h
    cases stop with
    | some status =>
      cases h
      exact ⟨⟨_, _, _, by rw [hfirst]⟩, nofun, fun _ => checkStop_finished hstop⟩
    | none =>
      simp only [seq_ok_iff] at h
      obtain ⟨⟨req1, kept1, stopped₁⟩, hrest, h⟩ := h
      cases h
      obtain ⟨⟨prob', time', hashes', happ⟩, hgo, hfin⟩ := ih hrest
      refine ⟨⟨prob', time', hashes', ?_⟩, fun hs => ?_, hfin⟩
      · rw [happ, hfirst]
        simp
      · obtain ⟨hk, hst⟩ := hgo hs
        rw [hfirst] at hst
        exact ⟨by rw [hk], hst⟩

structure SameSession (req req' : Request α) : Prop where
  resumable : req'.resumable = req.resumable
  streamingQueue : req'.streamingQueue = req.streamingQueue

theorem Appends.session (h : req.Appends req' kept status) : SameSession req req' := by
  obtain ⟨prob, time, hashes, rfl⟩ := h.eq
  exact ⟨rfl, rfl⟩

/-- What the output of a step does to a request, before the grammar sees the tokens: the request
afterwards, the tokens kept and whether they stop it. -/
inductive Takes (c : SchedulerConfig) (mo : ModelOutput α) (r : α) (req : Request α) :
    Request α → List Int → Bool → Prop
  | sync (req' : Request α) (kept : List Int) (stopped : Bool) (hne : mo.sampledTokenIds r ≠ [])
      (hsync : c.asyncScheduling = false)
      (h : req.updateWithOutput c.maxModelLen mo.now (mo.sampledTokenIds r) =
        .ok (req', kept, stopped)) : Takes c mo r req req' kept stopped
  | discard (hne : mo.sampledTokenIds r ≠ []) (hasync : c.asyncScheduling = true)
      (hflag : req.discardLatestAsyncTokens = true) :
      Takes c mo r req { req with discardLatestAsyncTokens := false } [] false
  | async (req' : Request α) (kept : List Int) (stopped : Bool) (hne : mo.sampledTokenIds r ≠ [])
      (hasync : c.asyncScheduling = true) (hflag : req.discardLatestAsyncTokens = false)
      (h : req.updateWithOutput c.maxModelLen mo.now (mo.sampledTokenIds r) =
        .ok (req', kept, stopped)) (hpos : 0 ≤ req'.numOutputPlaceholders - kept.length) :
      Takes c mo r req { req' with
        numOutputPlaceholders := req'.numOutputPlaceholders - kept.length } kept stopped
  | pooled (hnil : mo.sampledTokenIds r = []) (hpool : req.pooling = true ∧ mo.pooled r = true) :
      Takes c mo r req { req with status := .finishedStopped } [] true
  | nothing (hnil : mo.sampledTokenIds r = [])
      (hpool : ¬(req.pooling = true ∧ mo.pooled r = true)) : Takes c mo r req req [] false

end Request

variable {α ε κ : Type} [LinearOrder α]

/-! Which outputs stop a request. -/

namespace Scheduler

/-- The tokens of the output that a request keeps, and whether they stop it. -/
def outputOf (c : SchedulerConfig) (mo : ModelOutput α) (r : α) (req : Request α) :
    Except PyError (List Int × Bool) :=
  if mo.sampledTokenIds r ≠ [] then
    if c.asyncScheduling ∧ req.discardLatestAsyncTokens then .ok ([], false)
    else (req.updateWithOutput c.maxModelLen mo.now (mo.sampledTokenIds r)).map Prod.snd
  else .ok ([], req.pooling && mo.pooled r)

/-- The output stops the request, by its tokens or because the grammar rejects them. -/
def StopsOn (c : SchedulerConfig) (mo : ModelOutput α) (r : α) (req : Request α) : Prop :=
  ∃ kept stopped, outputOf c mo r req = .ok (kept, stopped) ∧
    (stopped = true ∨ kept ≠ [] ∧ mo.grammarRejects r = true)

/-- The session of the request can go on with a queued input chunk. -/
def HasChunk (req : Request α) : Prop :=
  req.resumable = true ∧ ∃ update rest, req.streamingQueue = some (some update :: rest)

/-- The grammar does not end the session and its next input chunk is queued already. -/
def GoesOn (c : SchedulerConfig) (mo : ModelOutput α) (r : α) (req : Request α) : Prop :=
  (∃ kept stopped, outputOf c mo r req = .ok (kept, stopped) ∧
    ¬(kept ≠ [] ∧ mo.grammarRejects r = true)) ∧ HasChunk req

omit [LinearOrder α] in
theorem outputOf_withCounts (c : SchedulerConfig) (mo : ModelOutput α) (r : α) (req : Request α)
    (a b : Int) : outputOf c mo r (req.withCounts a b) = outputOf c mo r req := by
  unfold outputOf
  rw [Request.updateWithOutput_withCounts]
  cases req.updateWithOutput c.maxModelLen mo.now (mo.sampledTokenIds r) <;> rfl

structure Applied (s s' : Scheduler α ε) (r : α) (stopped : Bool) : Prop where
  queues : SameQueues s s'
  other : ∀ x, x ≠ r → s'.objs x = s.objs x
  same : stopped = false → (s'.objs r).status = (s.objs r).status
  finished : stopped = true → (s'.objs r).isFinished = true

variable {c : SchedulerConfig} {s s' : Scheduler α ε} {r : α} {kept : List Int} {stopped : Bool}
  {mo : ModelOutput α} {policy : SchedulingPolicy}

omit [LinearOrder α] in
theorem takes_spec {req req' : Request α} (h : req.Takes c mo r req' kept stopped) :
    Request.SameSession req req' ∧ (stopped = false → req'.status = req.status) ∧
      (stopped = true → req'.isFinished = true) ∧ outputOf c mo r req = .ok (kept, stopped) := by
  unfold outputOf
  cases h with
  | sync _ _ _ hne hsync h =>
    obtain ⟨happ, hgo, hfin⟩ := Request.updateWithOutput_appends h
    refine ⟨happ.session, fun hs => (hgo hs).2, hfin, ?_⟩
    rw [if_pos hne, if_neg (by simp [hsync]), h]
    rfl
  | discard hne hasync hflag =>
    exact ⟨⟨rfl, rfl⟩, fun _ => rfl, nofun, by rw [if_pos hne, if_pos ⟨hasync, hflag⟩]⟩
  | async _ _ _ hne hasync hflag h =>
    obtain ⟨happ, hgo, hfin⟩ := Request.updateWithOutput_appends h
    refine ⟨⟨happ.session.1, happ.session.2⟩, fun hs => (hgo hs).2, hfin, ?_⟩
    rw [if_pos hne, if_neg (by simp [hflag]), h]
    rfl
  | pooled hnil hpool => exact ⟨⟨rfl, rfl⟩, nofun, fun _ => rfl, by simp [hnil, hpool]⟩
  | nothing hnil hpool => exact ⟨⟨rfl, rfl⟩, fun _ => rfl, nofun, by simpa [hnil] using hpool⟩

theorem applyOutput_takes (h : (if mo.sampledTokenIds r ≠ [] then
        s.updateRequestWithOutput c mo.now r (mo.sampledTokenIds r)
      else if (s.objs r).pooling ∧ mo.pooled r then
        .ok (s.modify r (fun req => { req with status := .finishedStopped }), [], true)
      else .ok (s, [], false)) = .ok (s', kept, stopped)) :
    SameQueues s s' ∧ (∀ x, x ≠ r → s'.objs x = s.objs x) ∧ s'.encoder = s.encoder ∧
      (s.objs r).Takes c mo r (s'.objs r) kept stopped := by
  by_cases hne : mo.sampledTokenIds r ≠ []
  · rw [if_pos hne] at h
    simp only [updateRequestWithOutput] at h
    by_cases hsync : c.asyncScheduling = false
    · rw [if_pos hsync, seq_ok_iff] at h
      obtain ⟨⟨req, kept1, stopped₁⟩, hreq, h⟩ := h
      cases h
      refine ⟨sameQueues_modify s r _, fun x hx => modify_objs_of_ne s _ hx, rfl, ?_⟩
      rw [modify_objs_self]
      exact .sync req kept1 stopped₁ hne hsync hreq
    rw [if_neg hsync] at h
    rw [Bool.not_eq_false] at hsync
    by_cases hflag : (s.objs r).discardLatestAsyncTokens = true
    · rw [if_pos hflag] at h
      cases h
      refine ⟨sameQueues_modify s r _, fun x hx => modify_objs_of_ne s _ hx, rfl, ?_⟩
      rw [modify_objs_self]
      exact .discard hne hsync hflag
    rw [if_neg hflag] at h
    simp only [seq_ok_iff, pyAssert_eq_ok] at h
    obtain ⟨⟨req, kept1, stopped₁⟩, hreq, -, hpos, kv, -, h⟩ := h
    cases h
    refine ⟨⟨rfl, rfl, rfl, rfl⟩, fun x hx => modify_objs_of_ne _ _ hx, rfl, ?_⟩
    rw [modify_objs_self]
    exact .async req kept1 stopped₁ hne hsync (Bool.eq_false_iff.mpr hflag) hreq hpos
  · rw [if_neg hne] at h
    rw [not_not] at hne
    by_cases hpool : (s.objs r).pooling = true ∧ mo.pooled r = true
    · rw [if_pos hpool] at h
      cases h
      refine ⟨sameQueues_modify s r _, fun x hx => modify_objs_of_ne s _ hx, rfl, ?_⟩
      rw [modify_objs_self]
      exact .pooled hne hpool
    · rw [if_neg hpool] at h
      cases h
      exact ⟨.refl s, fun _ _ => rfl, rfl, .nothing hne hpool⟩

theorem applyTokens_takes (h : s.applyTokens c mo r = .ok (s', kept, stopped)) :
    SameQueues s s' ∧ (∀ x, x ≠ r → s'.objs x = s.objs x) ∧ s'.encoder = s.encoder ∧
      ∃ req stopped', (s.objs r).Takes c mo r req kept stopped' ∧
        if kept ≠ [] ∧ mo.grammarRejects r = true then
          s'.objs r = { req with status := .finishedError, resumable := false } ∧ stopped = true
        else s'.objs r = req ∧ stopped = stopped' := by
  simp only [applyTokens, seq_ok_iff] at h
  obtain ⟨⟨s1, kept1, stopped₁⟩, hout, h⟩ := h
  obtain ⟨hq, hother, hencoder, htakes⟩ := applyOutput_takes hout
  by_cases hreject : kept1 ≠ [] ∧ mo.grammarRejects r = true
  · rw [if_pos hreject] at h
    cases h
    refine ⟨hq.trans (sameQueues_modify s1 r _), fun x hx => ?_, hencoder, _, _, htakes, ?_⟩
    · rw [modify_objs_of_ne _ _ hx, hother x hx]
    · rw [if_pos hreject, modify_objs_self]
      exact ⟨rfl, rfl⟩
  · rw [if_neg hreject] at h
    cases h
    exact ⟨hq, hother, hencoder, _, _, htakes, by rw [if_neg hreject]; exact ⟨rfl, rfl⟩⟩

theorem applyTokens_ok (h : s.applyTokens c mo r = .ok (s', kept, stopped)) :
    Applied s s' r stopped ∧ (stopped = true → StopsOn c mo r (s.objs r) ∧
      (HasChunk (s'.objs r) ↔ GoesOn c mo r (s.objs r))) := by
  obtain ⟨hq, hother, -, req, stopped', htakes, hreq⟩ := applyTokens_takes h
  obtain ⟨hsession, hsame, hfin, houtput⟩ := takes_spec htakes
  unfold StopsOn GoesOn HasChunk
  by_cases hreject : kept ≠ [] ∧ mo.grammarRejects r = true
  · rw [if_pos hreject] at hreq
    obtain ⟨hobj, rfl⟩ := hreq
    refine ⟨⟨hq, hother, nofun, fun _ => by rw [hobj]; rfl⟩,
      fun _ => ⟨⟨kept, stopped', houtput, .inr hreject⟩, ?_⟩⟩
    rw [hobj]
    refine iff_of_false (fun hc => Bool.false_ne_true hc.1) (fun hg => ?_)
    obtain ⟨⟨kept2, stopped₂, heq, hkeep⟩, -⟩ := hg
    obtain ⟨rfl, -⟩ := Prod.mk.inj (Except.ok.inj (houtput.symm.trans heq))
    exact hkeep hreject
  · rw [if_neg hreject] at hreq
    obtain ⟨rfl, rfl⟩ := hreq
    refine ⟨⟨hq, hother, hsame, hfin⟩, fun hstop => ⟨⟨kept, stopped, houtput, .inl hstop⟩, ?_⟩⟩
    rw [hsession.resumable, hsession.streamingQueue]
    exact ⟨fun hc => ⟨⟨kept, stopped, houtput, hreject⟩, hc⟩, fun hg => hg.2⟩

inductive Outcome (s s' : Scheduler α ε) (r : α) : Prop
  /-- It is freed. -/
  | finish (hchunk : ¬HasChunk (s.objs r)) (hfin : (s'.objs r).isFinished = true)
      (hwaiting : s'.waiting = s.waiting) (hskipped : s'.skippedWaiting = s.skippedWaiting)
  /-- Its session goes on with the next chunk. -/
  | goOn (hchunk : HasChunk (s.objs r)) (hstatus : (s'.objs r).status = .waiting)
      (hrequests : s'.requests = s.requests) (hwaiting : s'.waiting.Perm (r :: s.waiting))
      (hskipped : s'.skippedWaiting = s.skippedWaiting)
  /-- Its session waits for a chunk. -/
  | await (hchunk : ¬HasChunk (s.objs r)) (hstatus : (s'.objs r).status = .waitingForStreamingReq)
      (hrequests : s'.requests = s.requests) (hwaiting : s'.waiting = s.waiting)
      (hskipped : s'.skippedWaiting.Perm (r :: s.skippedWaiting))

/-- A stopped request is freed or goes back to a queue; the others are left alone. -/
structure Stopped (s s' : Scheduler α ε) (r : α) : Prop where
  running : s'.running = s.running
  other : ∀ x, x ≠ r → s'.objs x = s.objs x ∧ (x ∈ s'.requests ↔ x ∈ s.requests)
  outcome : Outcome s s' r

/-- Where a stopped request goes, as far as the request itself tells. -/
inductive Ends (req req' : Request α) : Prop
  | finish (h : req'.isFinished = true)
  | goOn (update : StreamingUpdate) (rest : List (Option StreamingUpdate))
      (hres : req.resumable = true) (hq : req.streamingQueue = some (some update :: rest))
      (h : req' = { req with streamingQueue := some rest }.updateAsSession update)
  | await (hres : req.resumable = true) (h : req' = { req with status := .waitingForStreamingReq })

theorem enqueueWaitingRequest_queues (policy : SchedulingPolicy) (s : Scheduler α ε) (r : α) :
    if (s.objs r).status.isBlockedWaiting = true then
      (s.enqueueWaitingRequest policy r).waiting = s.waiting ∧
        (s.enqueueWaitingRequest policy r).skippedWaiting.Perm (r :: s.skippedWaiting)
    else (s.enqueueWaitingRequest policy r).waiting.Perm (r :: s.waiting) ∧
      (s.enqueueWaitingRequest policy r).skippedWaiting = s.skippedWaiting := by
  unfold enqueueWaitingRequest
  split_ifs
  · exact ⟨rfl, RequestQueue.addRequest_perm policy s.lt s.skippedWaiting r⟩
  · exact ⟨RequestQueue.addRequest_perm policy s.lt s.waiting r, rfl⟩

theorem handleStoppedRequest_queued (h : s.handleStoppedRequest policy r = (s', false)) :
    ∃ s1, s' = s1.enqueueWaitingRequest policy r ∧ SameQueues s s1 ∧
      (∀ x, x ≠ r → s1.objs x = s.objs x) ∧ Ends (s.objs r) (s1.objs r) ∧
      (HasChunk (s.objs r) ∧ (s1.objs r).status = .waiting ∨
        ¬HasChunk (s.objs r) ∧ (s1.objs r).status = .waitingForStreamingReq) := by
  simp only [handleStoppedRequest] at h
  by_cases hres : (s.objs r).resumable = false
  · rw [if_pos hres] at h
    cases h
  rw [if_neg hres] at h
  rw [Bool.not_eq_false] at hres
  split at h
  · cases h
  · rename_i update rest hq
    have hsome : (s.objs r).streamingQueue = some (some update :: rest) := by
      cases hs : (s.objs r).streamingQueue <;> simp [hs] at hq ⊢
      exact hq
    have hobj : ((s.modify r (fun req => { req with
        streamingQueue := some rest })).updateRequestAsSession r update).objs r =
        { s.objs r with streamingQueue := some rest }.updateAsSession update := by
      simp [updateRequestAsSession]
    refine ⟨_, (Prod.mk.inj h).1.symm, ⟨rfl, rfl, rfl, rfl⟩, fun x hx => ?_,
      .goOn update rest hres hsome hobj, .inl ⟨⟨hres, update, rest, hsome⟩, by rw [hobj]; rfl⟩⟩
    simp [updateRequestAsSession, hx]
  · rename_i hq
    have hobj : (s.modify r (fun req => { req with status := .waitingForStreamingReq })).objs r =
        { s.objs r with status := .waitingForStreamingReq } := modify_objs_self s r _
    refine ⟨_, (Prod.mk.inj h).1.symm, ⟨rfl, rfl, rfl, rfl⟩,
      fun x hx => by simp [hx], .await hres hobj,
      .inr ⟨?_, congrArg Request.status hobj⟩⟩
    rintro ⟨-, update, rest, hsome⟩
    simp [hsome] at hq

theorem handleStoppedRequest_continues (h : s.handleStoppedRequest policy r = (s', false)) :
    Stopped s s' r := by
  obtain ⟨s1, rfl, hq, hother, -, hcases⟩ := handleStoppedRequest_queued h
  obtain ⟨hrunning, hobjs, hrequests⟩ := enqueueWaitingRequest_rest policy s1 r
  have hqueues := enqueueWaitingRequest_queues policy s1 r
  refine ⟨hrunning.trans hq.running, fun x hx => ⟨by rw [hobjs, hother x hx], ?_⟩, ?_⟩
  · rw [hrequests, hq.requests]
  rcases hcases with ⟨hchunk, hstatus⟩ | ⟨hchunk, hstatus⟩
  · rw [hstatus, hq.waiting, hq.skippedWaiting] at hqueues
    exact .goOn hchunk (by rw [hobjs, hstatus]) (hrequests.trans hq.requests) hqueues.1 hqueues.2
  · rw [hstatus, hq.waiting, hq.skippedWaiting] at hqueues
    exact .await hchunk (by rw [hobjs, hstatus]) (hrequests.trans hq.requests) hqueues.1 hqueues.2

theorem handleStoppedRequest_finishes (h : s.handleStoppedRequest policy r = (s', true)) :
    SameQueues s s' ∧ (∀ x, x ≠ r → s'.objs x = s.objs x) ∧ ¬HasChunk (s.objs r) := by
  simp only [handleStoppedRequest] at h
  by_cases hres : (s.objs r).resumable = false
  · rw [if_pos hres] at h
    obtain ⟨rfl, -⟩ := Prod.mk.inj h
    exact ⟨.refl s, fun _ _ => rfl, fun hc => Bool.false_ne_true (hres.symm.trans hc.1)⟩
  rw [if_neg hres] at h
  split at h
  · rename_i rest hq
    obtain ⟨rfl, -⟩ := Prod.mk.inj h
    refine ⟨sameQueues_modify s r _, fun x hx => by simp [hx], ?_⟩
    rintro ⟨-, update, rest', hsome⟩
    simp [hsome] at hq
  · cases h
  · cases h

theorem stopRequest_stopped {e : Env α ε κ} {k k' : κ} (h : stopRequest e mo s k r = .ok (s', k')) :
    Stopped s s' r := by
  unfold stopRequest at h
  split at h
  · rename_i s1 hstop
    obtain ⟨hq, hother, hchunk⟩ := handleStoppedRequest_finishes hstop
    have hf := freeRequest_freed h
    refine ⟨hf.running.trans hq.running, fun x hx => ⟨?_, ?_⟩, .finish hchunk ?_
      (hf.waiting.trans hq.waiting) (hf.skippedWaiting.trans hq.skippedWaiting)⟩
    · rw [hf.objs, hother x hx]
    · rw [hf.requests x hx, hq.requests]
    · rw [hf.objs]
      exact hf.finished
  · rename_i s1 hstop
    cases h
    exact handleStoppedRequest_continues hstop

theorem stopRequest_ends {e : Env α ε κ} {k k' : κ}
    (h : stopRequest e mo s k r = .ok (s', k')) : Ends (s.objs r) (s'.objs r) := by
  unfold stopRequest at h
  split at h
  · have hf := freeRequest_freed h
    refine .finish ?_
    rw [hf.objs]
    exact hf.finished
  rename_i s1 hstop
  cases h
  obtain ⟨s2, rfl, -, -, hends, -⟩ := handleStoppedRequest_queued hstop
  rw [(enqueueWaitingRequest_rest e.policy _ r).2.1]
  exact hends

end Scheduler
end TailBlend
