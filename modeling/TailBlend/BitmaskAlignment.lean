import TailBlend.BitmaskRows

/-! `apply_grammar_bitmask` against the bitmask of the scheduler: every row of the logits gets the
constraint of its own request and position. -/
namespace TailBlend.Grammar
open Rows Ragged Keyed List
variable {γ ι : Type} [DecidableEq ι] {b : Backend γ} {c : ManagerConfig}

theorem indices_foldl (drafts : ι → List Int) (ids : List ι) {reqIds : List ι} (q : Placing ι)
    (hnodup : reqIds.Nodup) (id : ι) :
    (reqIds.foldl (Placing.request drafts ids) q).indices id =
      if id ∈ reqIds ∧ id ∈ ids then
        some (q.batchIndex + q.cumulativeOffset + start (numLogits drafts) reqIds (reqIds.idxOf id))
      else q.indices id := by
  induction reqIds generalizing q with
  | nil => simp
  | cons k reqIds ih =>
    obtain ⟨hk, hnodup⟩ := nodup_cons.mp hnodup
    rw [foldl_cons, ih _ hnodup]
    by_cases hid : id = k
    · subst hid
      simp only [hk, false_and, if_false, mem_cons_self, true_and, idxOf_cons_self, Placing.request]
      split_ifs
      · exact Function.update_self ..
      · rfl
    have hmem : id ∈ k :: reqIds ↔ id ∈ reqIds := by simp [hid]
    have hold : (q.request drafts ids k).indices id = q.indices id := by
      simp only [Placing.request]
      split_ifs
      · exact Function.update_of_ne hid ..
      · rfl
    have hplace : (q.request drafts ids k).batchIndex + (q.request drafts ids k).cumulativeOffset =
        q.batchIndex + q.cumulativeOffset + numLogits drafts k := by
      simp only [Placing.request, numLogits]
      omega
    simp only [hold, hmem, hplace, idxOf_cons_ne _ (Ne.symm hid), start_cons_succ, Nat.add_assoc]

theorem structOutReqBatchIndices_eq (drafts : ι → List Int) (ids : List ι) {reqIds : List ι}
    (hnodup : reqIds.Nodup) (id : ι) :
    structOutReqBatchIndices drafts ids reqIds id =
      if id ∈ reqIds ∧ id ∈ ids then
        some (start (numLogits drafts) reqIds (reqIds.idxOf id))
      else none := by
  rw [structOutReqBatchIndices, indices_foldl drafts ids _ hnodup]
  simp

theorem run_copy {numRows : Nat} {bitmask : List Mask} {logitIdx n : Nat} {s : Sorting}
    {row : Nat → Mask} (hread : ∀ i < n, bitmask[s.cumulativeIndex + i]? = some (row i))
    (hfit : logitIdx + n ≤ numRows) :
    Trace.run (Sorting.copy numRows bitmask logitIdx) s (range n) = .ok { s with
      sortedBitmask := writeSlice s.sortedBitmask logitIdx ((range n).map row)
      outIndices := s.outIndices ++ (range n).map (logitIdx + ·) } := by
  induction n with
  | zero => simp [Trace.run]
  | succ n ih =>
    rw [range_succ, Trace.run_append, ih (fun i hi => hread i (by omega)) (by omega)]
    have hn := hread n (by omega)
    have hlt : logitIdx + n < numRows := by omega
    simp only [bind, Except.bind, Trace.run, Sorting.copy, hn, if_pos hlt]
    congr 2
    · have happ := writeSlice_append s.sortedBitmask logitIdx ((range n).map row) [row n]
      rw [length_map, length_range] at happ
      rw [update_eq_writeSlice, happ, map_append]
      rfl
    · rw [map_append, ← append_assoc]
      rfl

/-- The logits after the requests `done`: those of other requests are untouched. -/
structure Aligned (b : Backend γ) (c : ManagerConfig) (requests : ι → Request γ)
    (drafts : ι → List Int) (reqIds ids done : List ι) (s : Sorting) : Prop where
  index : s.cumulativeIndex = start (numLogits drafts) ids done.length
  rows : ∀ p id j, reqIds[p]? = some id → j < numLogits drafts id →
    s.sortedBitmask (start (numLogits drafts) reqIds p + j) =
      if id ∈ done then constraint b c (requests id) (drafts id) j else fullMask
  others : ∀ row, row ∉ s.outIndices → s.sortedBitmask row = fullMask

section step
variable {requests : ι → Request γ} {drafts : ι → List Int} {reqIds ids : List ι}

variable {id : ι} {done : List ι} {s : Sorting}

omit [DecidableEq ι] in
theorem getElem?_bitmask {p : Nat} (h : ids[p]? = some id) {j : Nat}
    (hj : j < numLogits drafts id) :
    (ids.flatMap fun id => requestRows b c (requests id) (drafts id))[
      start (numLogits drafts) ids p + j]? = some (constraint b c (requests id) (drafts id) j) := by
  have hlen : numLogits drafts = fun id => (requestRows b c (requests id) (drafts id)).length := by
    funext id
    rw [length_requestRows, numLogits, Nat.add_comm]
  rw [hlen] at hj ⊢
  rw [getElem?_flatMap _ h hj]
  have hlt : j < (drafts id).length + 1 := by simpa using hj
  simp [requestRows, getElem?_range hlt]

omit [DecidableEq ι] in
theorem writeSlice_rows {f : Nat → Mask} {q p j : Nat} {id' : ι} (hbatch : reqIds.Nodup)
    (hq : reqIds[q]? = some id) (hp : reqIds[p]? = some id') (hj : j < numLogits drafts id')
    (row : Nat → Mask) [Decidable (id' = id)] :
    writeSlice f (start (numLogits drafts) reqIds q) ((range (numLogits drafts id)).map row)
        (start (numLogits drafts) reqIds p + j) =
      if id' = id then row j else f (start (numLogits drafts) reqIds p + j) := by
  split_ifs with hid
  · subst hid
    obtain rfl : p = q := (getElem?_inj (lt_length_of_getElem? hp) hbatch).mp (hp.trans hq.symm)
    rw [writeSlice_get _ _ (by omega)]
    simp [getElem?_range hj]
  by_cases hlt : start (numLogits drafts) reqIds p + j < start (numLogits drafts) reqIds q
  · exact writeSlice_lt _ _ hlt
  apply writeSlice_ge
  rw [length_map, length_range]
  by_contra hin
  obtain ⟨rfl, -⟩ := start_add_inj (numLogits drafts) (j := j) hp hq hj
    (k := start (numLogits drafts) reqIds p + j - start (numLogits drafts) reqIds q)
    (by omega) (by omega)
  exact hid (Option.some.inj (hp.symm.trans hq))

def Sorting.copied (b : Backend γ) (c : ManagerConfig) (requests : ι → Request γ)
    (drafts : ι → List Int) (reqIds : List ι) (s : Sorting) (id : ι) (q : Nat) : Sorting where
  cumulativeIndex := s.cumulativeIndex + numLogits drafts id
  sortedBitmask := writeSlice s.sortedBitmask (start (numLogits drafts) reqIds q)
    ((range (numLogits drafts id)).map (constraint b c (requests id) (drafts id)))
  outIndices := s.outIndices ++
    (range (numLogits drafts id)).map (start (numLogits drafts) reqIds q + ·)

section
variable (h : Aligned b c requests drafts reqIds ids done s)
include h

theorem Aligned.copied {q : Nat} (hplace : ids[done.length]? = some id) (hbatch : reqIds.Nodup)
    (hq : reqIds[q]? = some id) :
    Aligned b c requests drafts reqIds ids (done ++ [id])
      (s.copied b c requests drafts reqIds id q) where
  index := by
    rw [length_append, length_singleton, start_succ _ hplace, ← h.index]
    rfl
  rows p id' j hp hj := by
    simp only [Sorting.copied, writeSlice_rows hbatch hq hp hj, h.rows p id' j hp hj]
    by_cases hsame : id' = id
    · rw [hsame, if_pos rfl, if_pos (by simp)]
    · simp [hsame]
  others row hrow := by
    simp only [Sorting.copied, mem_append, not_or] at hrow ⊢
    rw [← h.others row hrow.1]
    by_cases hlt : row < start (numLogits drafts) reqIds q
    · exact writeSlice_lt _ _ hlt
    apply writeSlice_ge
    rw [length_map, length_range]
    by_contra hin
    exact hrow.2 (mem_map.mpr ⟨row - start (numLogits drafts) reqIds q,
      mem_range.mpr (by omega), by omega⟩)

theorem Aligned.skipped (hplace : ids[done.length]? = some id) (hin : id ∉ reqIds) :
    Aligned b c requests drafts reqIds ids (done ++ [id])
      { s with cumulativeIndex := s.cumulativeIndex + numLogits drafts id } where
  index := by
    rw [length_append, length_singleton, start_succ _ hplace, ← h.index]
  rows p id' j hp hj := by
    have hne : id' ≠ id := fun he => hin (he ▸ mem_of_getElem? hp)
    simp only [h.rows p id' j hp hj, mem_append, mem_singleton, hne, or_false]
  others := h.others

theorem Aligned.request {rest : List ι} (hids : ids = done ++ id :: rest) (hbatch : reqIds.Nodup) :
    ∃ s', Sorting.request (start (numLogits drafts) reqIds reqIds.length)
        (ids.flatMap fun id => requestRows b c (requests id) (drafts id)) drafts
        (structOutReqBatchIndices drafts ids reqIds) s id = .ok s' ∧
      Aligned b c requests drafts reqIds ids (done ++ [id]) s' := by
  have hplace : ids[done.length]? = some id := by rw [hids]; simp
  have hfind := structOutReqBatchIndices_eq drafts ids hbatch id
  by_cases hin : id ∈ reqIds
  · rw [if_pos ⟨hin, mem_of_getElem? hplace⟩] at hfind
    have hq : reqIds[reqIds.idxOf id]? = some id := by
      rw [getElem?_eq_getElem (idxOf_lt_length_of_mem hin), getElem_idxOf]
    have hfit : start (numLogits drafts) reqIds (reqIds.idxOf id) + numLogits drafts id ≤
        start (numLogits drafts) reqIds reqIds.length := by
      rw [← start_succ _ hq]
      exact start_mono _ _ (lt_length_of_getElem? hq)
    have hread : ∀ i < numLogits drafts id,
        (ids.flatMap fun id => requestRows b c (requests id) (drafts id))[s.cumulativeIndex + i]? =
          some (constraint b c (requests id) (drafts id) i) :=
      fun i hi => h.index ▸ getElem?_bitmask hplace hi
    refine ⟨s.copied b c requests drafts reqIds id (reqIds.idxOf id), ?_, h.copied hplace hbatch hq⟩
    simp only [Sorting.request, hfind, run_copy hread hfit]
    rfl
  · rw [if_neg (fun hboth => hin hboth.1)] at hfind
    refine ⟨_, ?_, h.skipped hplace hin⟩
    simp only [Sorting.request, hfind, bind, Except.bind]

theorem Aligned.run {rest : List ι} (hids : ids = done ++ rest) (hbatch : reqIds.Nodup) :
    ∃ s', Trace.run (Sorting.request (start (numLogits drafts) reqIds reqIds.length)
        (ids.flatMap fun id => requestRows b c (requests id) (drafts id)) drafts
        (structOutReqBatchIndices drafts ids reqIds)) s rest = .ok s' ∧
      Aligned b c requests drafts reqIds ids ids s' := by
  induction rest generalizing done s with
  | nil =>
    rw [append_nil] at hids
    exact ⟨s, rfl, hids ▸ h⟩
  | cons id rest ih =>
    obtain ⟨mid, hmid, halign⟩ := h.request hids hbatch
    obtain ⟨s', hrun, hend⟩ := ih halign (by simp [hids])
    refine ⟨s', ?_, hend⟩
    rw [Trace.run, hmid]
    exact hrun

end

/-- `apply_grammar_bitmask` on the bitmask of the requests `ids`. The rows that the kernel is not
told to touch would have excluded nothing. -/
theorem applyGrammarBitmask_eq (requests : ι → Request γ) (drafts : ι → List Int) (ids : List ι)
    (hbatch : reqIds.Nodup) :
    ∃ rows, applyGrammarBitmask drafts
        ⟨ids, ids.flatMap fun id => requestRows b c (requests id) (drafts id)⟩ reqIds
        (start (numLogits drafts) reqIds reqIds.length) = .ok rows ∧
      ∀ p id j, reqIds[p]? = some id → j < numLogits drafts id →
        rows (start (numLogits drafts) reqIds p + j) =
          if id ∈ ids then constraint b c (requests id) (drafts id) j else fullMask := by
  have hstart : Aligned b c requests drafts reqIds ids [] ⟨0, fun _ => fullMask, []⟩ :=
    ⟨rfl, fun _ _ _ _ _ => by simp, fun _ _ => rfl⟩
  obtain ⟨s, hrun, hend⟩ := hstart.run (nil_append ids).symm hbatch
  refine ⟨s.sortedBitmask, ?_, hend.rows⟩
  simp only [applyGrammarBitmask, hrun, bind, Except.bind]
  congr 1
  funext row
  split_ifs with hrow
  · rfl
  · exact (hend.others row fun hm => hrow (.inr hm)).symm

end step


/-- Every row of the logits is constrained by the grammar of its own request after the drafts
before it, for requests in any order in the worker's batch; `grammar_bitmask` does not raise and
leaves every grammar as it was. -/
theorem logits_constrained (hb : b.Lawful) (pool : ThreadPool γ) (buffer : Option (Nat → Mask))
    (requests : ι → Request γ) (ids reqIds : List ι) (drafts : ι → List Int)
    (hnodup : ids.Nodup) (hbatch : reqIds.Nodup)
    (hs : ∀ id ∈ ids, (requests id).useStructuredOutput = true)
    (hvalid : ∀ id ∈ ids, DraftsValid b c (requests id) (drafts id))
    (hseqs : ids.length ≤ c.maxNumSeqs)
    (hspec : ∀ id ∈ ids, (drafts id).length ≤ c.maxNumSpecTokens) :
    ∃ bitmask buffer' requests' rows,
      grammarBitmask b c pool buffer requests ids drafts = .ok (bitmask, buffer', requests') ∧
      SameGrammars requests requests' ∧
      maskLogits drafts (bitmask.map (GrammarOutput.mk ids)) reqIds = .ok rows ∧
      ∀ p id j, reqIds[p]? = some id → j < numLogits drafts id →
        rows (start (numLogits drafts) reqIds p + j) =
          if id ∈ ids then constraint b c (requests id) (drafts id) j else fullMask := by
  by_cases hne : ids = []
  · subst hne
    exact ⟨none, buffer, requests, fun _ => fullMask, rfl, fun _ => rfl, rfl, by simp⟩
  obtain ⟨buffer', hmask⟩ :=
    grammarBitmask_eq hb pool buffer hne hnodup hs hvalid hseqs hspec
  obtain ⟨rows, happly, hrows⟩ := 
    applyGrammarBitmask_eq (b := b) (c := c) requests drafts ids hbatch
  exact ⟨_, buffer', _, rows, hmask, sameGrammars_settled requests ids, happly, hrows⟩

def countMatcher : Matcher Nat where
  next s token := if s < 3 ∧ token = s then some (s + 1) else none
  isTerminated s := decide (3 ≤ s)
  allowed s := fun token => token = s
  next_terminated s token h := if_neg fun hs => by
    have := of_decide_eq_true h
    omega

def countGrammar : SyncedGrammar countMatcher := ⟨⟨⟨0, []⟩, 0, false⟩, rfl⟩

def noReasoning : ReasoningParser := ⟨fun _ => false, fun _ _ => false⟩

/-- Request `0` follows a grammar, request `1` has none, request `2` is still reasoning. -/
def smallRequests : Nat → Request (SyncedGrammar countMatcher)
  | 0 => ⟨some [9], [9], 1, 0, false, [], false, some ⟨noReasoning, some true, countGrammar⟩⟩
  | 1 => ⟨some [9], [9], 1, 0, false, [], false, none⟩
  | _ => ⟨some [9], [9], 1, 0, false, [], false, some ⟨noReasoning, none, countGrammar⟩⟩

def smallDrafts : Nat → List Int
  | 0 => [0, 1, -1]
  | 1 => [7]
  | _ => [5, 6]

/-- Three requests in another order in the worker's batch than in the bitmask. -/
theorem logits_constrained_small :
    ∃ bitmask buffer' requests' rows,
      grammarBitmask (xgrammar countMatcher) ⟨true, false, 4, some 3⟩ ⟨flatten, fun _ => .rfl⟩
        none smallRequests [0, 2] smallDrafts = .ok (bitmask, buffer', requests') ∧
      SameGrammars smallRequests requests' ∧
      maskLogits smallDrafts (bitmask.map (GrammarOutput.mk [0, 2])) [1, 2, 0] = .ok rows ∧
      ∀ p id j, [1, 2, 0][p]? = some id → j < numLogits smallDrafts id →
        rows (start (numLogits smallDrafts) [1, 2, 0] p + j) =
          if id ∈ [0, 2] then
            constraint (xgrammar countMatcher) ⟨true, false, 4, some 3⟩ (smallRequests id)
              (smallDrafts id) j
          else fullMask := by
  refine logits_constrained (xgrammar_lawful countMatcher) _ none smallRequests [0, 2] [1, 2, 0]
    smallDrafts (by decide) (by decide) (by decide) ?_ (by decide) (by decide)
  intro id hid s hs hover
  simp only [mem_cons, not_mem_nil, or_false] at hid
  rcases hid with rfl | rfl
  · cases hs
    exact ⟨[0, 1], 1, rfl, by decide, rfl⟩
  · cases hs
    exact absurd hover (by decide)

end TailBlend.Grammar
