import TailBlend.GrammarBitmask

/-! What `grammar_bitmask` puts into the rows of each request, in the serial and in the parallel
loop, and that it leaves the grammars as they were. -/
namespace TailBlend.Grammar
open Rows Keyed Trace List
variable {γ ι : Type} {b : Backend γ} {c : ManagerConfig} {numRows : Nat}

def nextMask (b : Backend γ) (g : γ) : Mask := if b.isTerminated g then fullMask else b.bitmask g

/-- The constraint at draft position `j`: the mask of the grammar after the first `j` drafts. There
is none if the bitmask does not apply or a padding draft precedes `j`. -/
def maskAfter (b : Backend γ) (applyBitmask : Bool) (g : γ) (drafts : List Int) (j : Nat) : Mask :=
  if applyBitmask = true ∧ -1 ∉ drafts.take j then
    ((b.advance g (drafts.take j)).map (nextMask b)).getD fullMask
  else fullMask

def segment (b : Backend γ) (applyBitmask : Bool) (g : γ) (drafts : List Int) : List Mask :=
  (range (drafts.length + 1)).map (maskAfter b applyBitmask g drafts)

/-- Drafts as `validate_tokens` and the padding to the scheduled number leave them. -/
def Validated (b : Backend γ) (g : γ) (drafts : List Int) : Prop :=
  ∃ valid k, drafts = valid ++ replicate k (-1) ∧ -1 ∉ valid ∧ (b.advance g valid).isSome

variable {g g' : γ} {batch : List (Entry γ)} {tokens : List Int}

theorem maskAfter_zero (g : γ) (drafts : List Int) :
    maskAfter b true g drafts 0 = nextMask b g := by
  simp [maskAfter, Backend.advance]

theorem maskAfter_cons {token : Int} (hpad : token ≠ -1) (h : b.acceptTokens g [token] = some g')
    (drafts : List Int) (j : Nat) :
    maskAfter b true g (token :: drafts) (j + 1) = maskAfter b true g' drafts j := by
  have hmem : -1 ∉ token :: drafts.take j ↔ -1 ∉ drafts.take j := by simp [hpad.symm]
  simp only [maskAfter, take_succ_cons, hmem, Backend.advance_cons h]

theorem maskAfter_padding (g : γ) (drafts : List Int) (j : Nat) :
    maskAfter b true g (-1 :: drafts) (j + 1) = fullMask :=
  if_neg (by simp [take_succ_cons])

theorem segment_eq_cons (applyBitmask : Bool) (g : γ) (token : Int) (drafts : List Int) :
    segment b applyBitmask g (token :: drafts) = maskAfter b applyBitmask g (token :: drafts) 0 ::
      (range (drafts.length + 1)).map
        (fun j => maskAfter b applyBitmask g (token :: drafts) (j + 1)) := by
  rw [segment, range_succ_eq_map, map_cons, map_map]
  rfl

theorem segment_cons {token : Int} (hpad : token ≠ -1) (h : b.acceptTokens g [token] = some g')
    (drafts : List Int) :
    segment b true g (token :: drafts) = nextMask b g :: segment b true g' drafts := by
  simp only [segment_eq_cons, maskAfter_cons hpad h]
  rfl

theorem segment_padding (g : γ) (k : Nat) :
    segment b true g (replicate k (-1)) = nextMask b g :: replicate k fullMask := by
  cases k with
  | zero => simp [segment, maskAfter_zero]
  | succ k =>
    simp only [replicate_succ, segment_eq_cons, maskAfter_zero, maskAfter_padding]
    simp [replicate_succ]

theorem segment_idle (g : γ) (drafts : List Int) :
    segment b false g drafts = replicate (drafts.length + 1) fullMask := by
  have hfull : maskAfter b false g drafts = fun _ => fullMask := by
    funext j
    exact if_neg (by simp)
  rw [segment, hfull, map_const', length_range]

theorem Backend.Lawful.advance_terminated (hb : b.Lawful)
    (hterm : b.isTerminated g = true) (h : b.advance g tokens = some g') :
    b.isTerminated g' = true := by
  induction tokens generalizing g with
  | nil =>
    obtain rfl : g = g' := by simpa [Backend.advance] using h
    exact hterm
  | cons token tokens ih =>
    obtain ⟨mid, hmid, hrest⟩ := Option.bind_eq_some_iff.mp h
    exact ih (hb.stays g token mid hterm hmid) hrest

theorem segment_terminated (hb : b.Lawful) (hterm : b.isTerminated g = true) (drafts : List Int) :
    segment b true g drafts = replicate (drafts.length + 1) fullMask := by
  have hfull : maskAfter b true g drafts = fun _ => fullMask := by
    funext j
    unfold maskAfter
    split_ifs
    · cases hadv : b.advance g (drafts.take j) with
      | none => rfl
      | some g' => exact if_pos (hb.advance_terminated hterm hadv)
    · rfl
  rw [segment, hfull, map_const', length_range]

theorem fillBitmasks_eq {rows : Nat → Mask}
    (h : ∀ e ∈ batch, e.index < numRows) :
    fillBitmasks b numRows rows batch =
      .ok (writeAll rows (batch.map fun e => (e.index, e.mask b))) := by
  induction batch generalizing rows with
  | nil => rfl
  | cons e batch ih =>
    rw [fillBitmasks, run, if_pos (h e mem_cons_self)]
    exact ih fun e' he' => h e' (mem_cons_of_mem _ he')

theorem fillBitmasks_one (rows : Nat → Mask) (e : Entry γ) (h : e.index < numRows) :
    fillBitmasks b numRows rows [e] = .ok (writeSlice rows e.index [e.mask b]) := by
  rw [fillBitmasks_eq (by simpa using h), ← update_eq_writeSlice]
  rfl

theorem Entry.mask_true (g : γ) (i : Nat) : Entry.mask b ⟨g, i, true⟩ = nextMask b g := by
  unfold Entry.mask nextMask
  cases b.isTerminated g <;> rfl

namespace Walk

theorem token_idle {w : Walk γ} (hw : w.applyBitmask = false) (hlt : w.cumulativeIndex < numRows)
    (t : Int) :
    w.token b numRows t = .ok { w with
      rows := writeSlice w.rows w.cumulativeIndex [fullMask]
      cumulativeIndex := w.cumulativeIndex + 1 } := by
  obtain ⟨rows, g, apply, n, i⟩ := w
  obtain rfl : apply = false := hw
  rw [token, fillBitmasks_one _ _ hlt]
  simp [bind, Except.bind, Entry.mask]

variable {rows : Nat → Mask} {g : γ} {n i : Nat}

theorem token_padding (hlt : i < numRows) :
    (⟨rows, g, true, n, i⟩ : Walk γ).token b numRows (-1) =
      .ok ⟨writeSlice rows i [nextMask b g], g, false, n, i + 1⟩ := by
  rw [token, fillBitmasks_one _ _ hlt, Entry.mask_true]
  simp [bind, Except.bind]

theorem token_terminated {apply : Bool} (hterm : b.isTerminated g = true) (hlt : i < numRows)
    (t : Int) :
    (⟨rows, g, apply, n, i⟩ : Walk γ).token b numRows t =
      .ok ⟨writeSlice rows i [fullMask], g, if t = -1 then false else apply, n, i + 1⟩ := by
  rw [token, fillBitmasks_one _ _ hlt]
  simp [bind, Except.bind, Entry.mask, hterm]

theorem token_accepted {g' : γ} {t : Int} (hlive : b.isTerminated g = false) (hlt : i < numRows)
    (ht : t ≠ -1) (h : b.acceptTokens g [t] = some g') :
    (⟨rows, g, true, n, i⟩ : Walk γ).token b numRows t =
      .ok ⟨writeSlice rows i [nextMask b g], g', true, n + 1, i + 1⟩ := by
  rw [token, fillBitmasks_one _ _ hlt, Entry.mask_true]
  simp [bind, Except.bind, ht, hlive, h]

theorem run_idle (w : Walk γ) (hw : w.applyBitmask = false) (tokens : List Int)
    (hfit : w.cumulativeIndex + tokens.length ≤ numRows) :
    run (token b numRows) w tokens = .ok { w with
      rows := writeSlice w.rows w.cumulativeIndex (replicate tokens.length fullMask)
      cumulativeIndex := w.cumulativeIndex + tokens.length } := by
  induction tokens generalizing w with
  | nil => simp [run]
  | cons t tokens ih =>
    rw [length_cons] at hfit ⊢
    rw [run, token_idle hw (by omega)]
    have hrest := ih { w with
      rows := writeSlice w.rows w.cumulativeIndex [fullMask]
      cumulativeIndex := w.cumulativeIndex + 1 } hw (by simp only; omega)
    simp only [bind, Except.bind, hrest]
    congr 2
    · exact writeSlice_append _ _ [fullMask] _
    · omega

theorem run_terminated (hterm : b.isTerminated g = true) (rows : Nat → Mask) (apply : Bool)
    (n : Nat) (hfit : i + tokens.length ≤ numRows) :
    ∃ apply', run (token b numRows) ⟨rows, g, apply, n, i⟩ tokens =
      .ok ⟨writeSlice rows i (replicate tokens.length fullMask), g, apply', n,
        i + tokens.length⟩ := by
  induction tokens generalizing rows apply i with
  | nil => exact ⟨apply, by simp [run]⟩
  | cons t tokens ih =>
    rw [length_cons] at hfit
    rw [run, token_terminated hterm (by omega)]
    obtain ⟨apply', hrest⟩ := ih (writeSlice rows i [fullMask]) (if t = -1 then false else apply)
      (i := i + 1) (by omega)
    refine ⟨apply', ?_⟩
    simp only [bind, Except.bind, hrest, length_cons]
    congr 2
    · exact writeSlice_append _ _ [fullMask] _
    · omega

/-- The walk over validated drafts writes their constraints; it advances the grammar by some first
part of them. -/
theorem run_validated (hb : b.Lawful) (rows : Nat → Mask) (n : Nat) {k : Nat} {valid : List Int}
    (hpad : -1 ∉ valid) (hg : (b.advance g valid).isSome)
    (hfit : i + (valid.length + k + 1) ≤ numRows) :
    ∃ m g' apply', m ≤ valid.length ∧ b.advance g (valid.take m) = some g' ∧
      run (token b numRows) ⟨rows, g, true, n, i⟩ (valid ++ replicate (k + 1) (-1)) =
        .ok ⟨writeSlice rows i (segment b true g (valid ++ replicate k (-1))), g', apply',
          n + m, i + (valid.length + k + 1)⟩ := by
  induction valid generalizing rows g n i with
  | nil =>
    refine ⟨0, g, false, le_rfl, rfl, ?_⟩
    simp only [length_nil, nil_append, replicate_succ] at hfit ⊢
    rw [run, token_padding (by omega)]
    have hidle : run (token b numRows) _ (replicate k (-1)) = _ :=
      run_idle ⟨writeSlice rows i [nextMask b g], g, false, n, i + 1⟩ rfl _
        (by simp only [length_replicate]; omega)
    simp only [bind, Except.bind, hidle, segment_padding, length_replicate]
    congr 2
    · exact writeSlice_append _ _ [nextMask b g] _
    · omega
  | cons t valid ih =>
    rw [length_cons] at hfit
    by_cases hterm : b.isTerminated g = true
    · have hlen : (t :: valid ++ replicate (k + 1) (-1)).length = valid.length + 1 + k + 1 := by
        simp only [length_cons, length_append, length_replicate]
        omega
      obtain ⟨apply', hrun⟩ := run_terminated hterm rows true n (hlen ▸ hfit)
      refine ⟨0, g, apply', Nat.zero_le _, rfl, ?_⟩
      have hsegment : (t :: valid ++ replicate k (-1)).length + 1 = valid.length + 1 + k + 1 := by
        simp only [cons_append, length_cons, length_append, length_replicate]
        omega
      rw [hrun, segment_terminated hb hterm, hlen, hsegment]
      rfl
    obtain ⟨last, hlast⟩ := Option.isSome_iff_exists.mp hg
    obtain ⟨mid, hmid, hrest⟩ := Option.bind_eq_some_iff.mp hlast
    have ht : t ≠ -1 := fun h => hpad (h ▸ mem_cons_self)
    obtain ⟨m, g', apply', hm, hg', hrun⟩ := ih (writeSlice rows i [nextMask b g]) (n + 1)
      (i := i + 1) (fun h => hpad (mem_cons_of_mem _ h)) (Option.isSome_of_eq_some hrest)
      (by omega)
    refine ⟨m + 1, g', apply', by simpa using hm, ?_, ?_⟩
    · rw [take_succ_cons, Backend.advance_cons hmid]
      exact hg'
    rw [cons_append, run, token_accepted (by simpa using hterm) (by omega) ht hmid]
    simp only [bind, Except.bind, hrun, cons_append, segment_cons ht hmid, length_cons]
    congr 2
    · exact writeSlice_append _ _ [nextMask b g] _
    · omega
    · omega

end Walk

/-- The grammar holds now: nothing reasons, or the reasoning is constrained too, or it is over, as
noted before or, where nothing is noted yet, as the parser finds at the end of the prompt. -/
abbrev ReasoningOver (c : ManagerConfig) (promptTokenIds : Option (List Int))
    (s : StructuredOutputRequest γ) : Prop :=
  c.hasReasoner = false ∨ c.enableInReasoning = true ∨ s.reasoningEnded = some true ∨
    s.reasoningEnded = none ∧ s.reasoner.isReasoningEnd (promptTokenIds.getD []) = true

theorem shouldFillBitmask_fst (p : Option (List Int)) (s : StructuredOutputRequest γ) :
    (shouldFillBitmask c p s).1 = decide (ReasoningOver c p s) := by
  obtain ⟨reasoner, ended, grammar⟩ := s
  unfold shouldFillBitmask
  split_ifs with hr he
  · simp [he]
  · cases ended <;> simp [hr, he]
  · simp [hr]

/-- The constraint of a request at draft position `j`: none if the request has no grammar or its
reasoning is not over. -/
def constraint (b : Backend γ) (c : ManagerConfig) (r : Request γ) (drafts : List Int) (j : Nat) :
    Mask :=
  match r.structuredOutputRequest with
  | none => fullMask
  | some s => maskAfter b (decide (ReasoningOver c r.promptTokenIds s)) s.grammar drafts j

def requestRows (b : Backend γ) (c : ManagerConfig) (r : Request γ) (drafts : List Int) :
    List Mask :=
  (range (drafts.length + 1)).map (constraint b c r drafts)

def DraftsValid (b : Backend γ) (c : ManagerConfig) (r : Request γ) (drafts : List Int) : Prop :=
  ∀ s, r.structuredOutputRequest = some s → ReasoningOver c r.promptTokenIds s →
    Validated b s.grammar drafts

def settled (c : ManagerConfig) (r : Request γ) : Request γ :=
  { r with structuredOutputRequest := r.structuredOutputRequest.map fun s =>
      (shouldFillBitmask c r.promptTokenIds s).2 }

def SameGrammars (requests requests' : ι → Request γ) : Prop :=
  ∀ id, (requests' id).structuredOutputRequest.map (·.grammar) =
    (requests id).structuredOutputRequest.map (·.grammar)

theorem requestRows_eq_segment {r : Request γ} {s : StructuredOutputRequest γ}
    (h : r.structuredOutputRequest = some s) (drafts : List Int) :
    requestRows b c r drafts =
      segment b (shouldFillBitmask c r.promptTokenIds s).1 s.grammar drafts := by
  have hj : constraint b c r drafts =
      maskAfter b (shouldFillBitmask c r.promptTokenIds s).1 s.grammar drafts := by
    funext j
    simp only [constraint, h, shouldFillBitmask_fst]
  rw [requestRows, segment, hj]

@[simp]
theorem length_requestRows (r : Request γ) (drafts : List Int) :
    (requestRows b c r drafts).length = drafts.length + 1 := by
  simp [requestRows]

@[simp]
theorem shouldFillBitmask_grammar (p : Option (List Int)) (s : StructuredOutputRequest γ) :
    (shouldFillBitmask c p s).2.grammar = s.grammar := by
  unfold shouldFillBitmask
  split_ifs <;> rfl

section loops
variable [DecidableEq ι]

variable {requests : ι → Request γ} {id : ι} {s : StructuredOutputRequest γ} {drafts : ι → List Int}
  {ids : List ι} {f : Filling ι γ}

theorem setStructured_eq (hs : (requests id).structuredOutputRequest = some s) :
    setStructured requests id (shouldFillBitmask c (requests id).promptTokenIds s).2 =
      Function.update requests id (settled c (requests id)) := by
  simp [setStructured, settled, hs]

theorem sameGrammars_settled (requests : ι → Request γ) (ids : List ι) :
    SameGrammars requests (updateEach (fun _ => settled c) requests ids) := by
  intro id
  refine updateEach_keeps (fun r => r.structuredOutputRequest.map (·.grammar)) ?_ requests ids id
  intro _ r
  cases hs : r.structuredOutputRequest with
  | none => simp [settled, hs]
  | some s => simp [settled, hs]

theorem fillRequest_eq (hb : b.Lawful)
    (hs : (f.requests id).structuredOutputRequest = some s)
    (hvalid : DraftsValid b c (f.requests id) (drafts id))
    (hfit : f.cumulativeIndex + numLogits drafts id ≤ c.bitmaskRows) :
    fillRequest b c drafts f id = .ok
      ⟨Function.update f.requests id (settled c (f.requests id)),
        writeSlice f.rows f.cumulativeIndex (requestRows b c (f.requests id) (drafts id)),
        f.cumulativeIndex + numLogits drafts id⟩ := by
  rw [requestRows_eq_segment hs, ← setStructured_eq hs]
  unfold numLogits at hfit ⊢
  simp only [fillRequest, hs, shouldFillBitmask_grammar]
  cases happly : (shouldFillBitmask c (f.requests id).promptTokenIds s).1 with
  | false =>
    rw [Walk.run_idle _ rfl _ (by simp only [length_append, length_singleton]; omega)]
    simp only [bind, Except.bind, segment_idle, length_append, length_singleton, lt_irrefl,
      if_false, Nat.add_comm 1]
    rw [← shouldFillBitmask_grammar (c := c) (f.requests id).promptTokenIds s]
  | true =>
    have hover := of_decide_eq_true ((shouldFillBitmask_fst ..).symm.trans happly)
    obtain ⟨valid, k, hd, hpad, hsome⟩ := hvalid s hs hover
    have hlen : (drafts id).length = valid.length + k := by simp [hd]
    have htokens : drafts id ++ [-1] = valid ++ replicate (k + 1) (-1) := by
      rw [hd, replicate_succ', append_assoc]
    have hfit' : f.cumulativeIndex + (valid.length + k + 1) ≤ c.bitmaskRows := by omega
    obtain ⟨m, g', apply', hm, hg', hrun⟩ := Walk.run_validated hb f.rows 0 hpad hsome hfit'
    rw [htokens, hrun, ← hd]
    -- the grammar goes back by the tokens it accepted
    have hback : (if 0 + m > 0 then b.rollback g' (0 + m) else g') = s.grammar := by
      rw [Nat.zero_add]
      split_ifs with hpos
      · have hundo := hb.undoes _ _ _ hg'
        rwa [length_take, Nat.min_eq_left hm] at hundo
      · obtain rfl : m = 0 := by omega
        simpa [Backend.advance] using hg'.symm
    simp only [bind, Except.bind, hback]
    congr 2
    · rw [← shouldFillBitmask_grammar (c := c) (f.requests id).promptTokenIds s]
    · omega

theorem run_fillRequest (hb : b.Lawful) (hnodup : ids.Nodup)
    (hs : ∀ id ∈ ids, (f.requests id).useStructuredOutput = true)
    (hvalid : ∀ id ∈ ids, DraftsValid b c (f.requests id) (drafts id))
    (hfit : f.cumulativeIndex + (ids.map (numLogits drafts)).sum ≤ c.bitmaskRows) :
    run (fillRequest b c drafts) f ids = .ok
      ⟨updateEach (fun _ => settled c) f.requests ids,
        writeSlice f.rows f.cumulativeIndex
          (ids.flatMap fun id => requestRows b c (f.requests id) (drafts id)),
        f.cumulativeIndex + (ids.map (numLogits drafts)).sum⟩ := by
  induction ids generalizing f with
  | nil => simp [run, updateEach]
  | cons id ids ih =>
    obtain ⟨hid, hnodup⟩ := nodup_cons.mp hnodup
    obtain ⟨s, hsome⟩ := Option.isSome_iff_exists.mp (hs id mem_cons_self)
    rw [map_cons, sum_cons] at hfit
    rw [run, fillRequest_eq hb hsome (hvalid id mem_cons_self) (by omega)]
    -- the other requests are as before
    have hother : ∀ k ∈ ids, Function.update f.requests id (settled c (f.requests id)) k =
        f.requests k := by
      intro k hk
      exact Function.update_of_ne (fun h : k = id => hid (h ▸ hk)) ..
    have hrest := ih
      (f := ⟨Function.update f.requests id (settled c (f.requests id)),
        writeSlice f.rows f.cumulativeIndex (requestRows b c (f.requests id) (drafts id)),
        f.cumulativeIndex + numLogits drafts id⟩) hnodup
      (fun k hk => by simp only [hother k hk]; exact hs k (mem_cons_of_mem _ hk))
      (fun k hk => by simp only [hother k hk]; exact hvalid k (mem_cons_of_mem _ hk))
      (by simp only; omega)
    simp only [bind, Except.bind, hrest]
    congr 2
    · have hlen : f.cumulativeIndex + numLogits drafts id = f.cumulativeIndex +
          (requestRows b c (f.requests id) (drafts id)).length := by
        rw [length_requestRows, numLogits, Nat.add_comm 1]
      simp only [hlen]
      rw [writeSlice_append]
      congr 2
      exact flatMap_congr fun k hk => by rw [hother k hk]
    · simp only [map_cons, sum_cons]
      omega

def singleRows (b : Backend γ) (c : ManagerConfig) (requests : ι → Request γ) (i : Nat)
    (ids : List ι) : List (Nat × Mask) :=
  (ids.zipIdx i).map fun p => (p.2, constraint b c (requests p.1) [] 0)

omit [DecidableEq ι] in
theorem mem_singleRows {w : Nat × Mask} :
    w ∈ singleRows b c requests 0 ids ↔
      ∃ id, ids[w.1]? = some id ∧ w.2 = constraint b c (requests id) [] 0 := by
  simp only [singleRows, mem_map, Prod.exists, mem_zipIdx_iff_getElem?]
  constructor
  · rintro ⟨id, i, hid, rfl⟩
    exact ⟨id, hid, rfl⟩
  · rintro ⟨id, hid, hw⟩
    exact ⟨id, w.1, hid, Prod.ext rfl hw.symm⟩

omit [DecidableEq ι] in
theorem singleRows_cons (hs : (requests id).structuredOutputRequest = some s) (i : Nat)
    (ids : List ι) :
    singleRows b c requests i (id :: ids) =
      (i, Entry.mask b ⟨s.grammar, i, (shouldFillBitmask c (requests id).promptTokenIds s).1⟩) ::
        singleRows b c requests (i + 1) ids := by
  have hmask : ∀ apply, maskAfter b apply s.grammar [] 0 = Entry.mask b ⟨s.grammar, i, apply⟩ := by
    intro apply
    cases apply with
    | false => simp [maskAfter, Entry.mask]
    | true => rw [maskAfter_zero, Entry.mask_true]
  simp only [singleRows, zipIdx_cons, map_cons, constraint, hs, hmask, shouldFillBitmask_fst]

theorem run_dispatchRequest {d : Dispatch ι γ} (hnodup : ids.Nodup)
    (hs : ∀ id ∈ ids, (d.requests id).useStructuredOutput = true) :
    ∃ d', run (dispatchRequest c) d ids = .ok d' ∧
      d'.requests = updateEach (fun _ => settled c) d.requests ids ∧
      d'.cumulativeIndex = d.cumulativeIndex + ids.length ∧
      (d'.promises.flatten ++ d'.batch).map (fun e => (e.index, e.mask b)) =
        (d.promises.flatten ++ d.batch).map (fun e => (e.index, e.mask b)) ++
          singleRows b c d.requests d.cumulativeIndex ids := by
  induction ids generalizing d with
  | nil => exact ⟨d, rfl, rfl, rfl, by simp [singleRows]⟩
  | cons id ids ih =>
    obtain ⟨hid, hnodup⟩ := nodup_cons.mp hnodup
    obtain ⟨s, hsome⟩ := Option.isSome_iff_exists.mp (hs id mem_cons_self)
    have hother : ∀ k ∈ ids, Function.update d.requests id (settled c (d.requests id)) k =
        d.requests k := by
      intro k hk
      exact Function.update_of_ne (fun h : k = id => hid (h ▸ hk)) ..
    -- whether the batch is full or not, one element was added
    obtain ⟨mid, hmid, hreq, hindex, hflat⟩ : ∃ mid, dispatchRequest c d id = .ok mid ∧
        mid.requests = Function.update d.requests id (settled c (d.requests id)) ∧
        mid.cumulativeIndex = d.cumulativeIndex + 1 ∧
        mid.promises.flatten ++ mid.batch = d.promises.flatten ++ d.batch ++
          [⟨s.grammar, d.cumulativeIndex,
            (shouldFillBitmask c (d.requests id).promptTokenIds s).1⟩] := by
      simp only [dispatchRequest, hsome, setStructured_eq hsome]
      split_ifs
      · exact ⟨_, rfl, rfl, rfl, by simp⟩
      · exact ⟨_, rfl, rfl, rfl, by simp⟩
    obtain ⟨d', hrun, hsame, hend, hall⟩ := ih (d := mid) hnodup (by
      intro k hk
      rw [hreq, hother k hk]
      exact hs k (mem_cons_of_mem _ hk))
    refine ⟨d', ?_, ?_, ?_, ?_⟩
    · rw [run, hmid]
      exact hrun
    · rw [hsame, hreq, updateEach_cons]
    · rw [length_cons]
      omega
    have hrest : singleRows b c mid.requests mid.cumulativeIndex ids =
        singleRows b c d.requests (d.cumulativeIndex + 1) ids := by
      rw [hindex, hreq]
      refine map_congr_left fun p hp => ?_
      rw [hother p.1 (fst_mem_of_mem_zipIdx hp)]
    rw [hall, hflat, hrest, singleRows_cons hsome, map_append, append_assoc]
    rfl

omit [DecidableEq ι] in
theorem fillBitmasks_singleRows (rows : Nat → Mask)
    (hfit : ids.length ≤ c.bitmaskRows)
    (hperm : (batch.map fun e => (e.index, e.mask b)).Perm (singleRows b c requests 0 ids)) :
    ∃ rows', fillBitmasks b c.bitmaskRows rows batch = .ok rows' ∧
      (range ids.length).map rows' = ids.map fun id => constraint b c (requests id) [] 0 := by
  have hmem : ∀ w, w ∈ batch.map (fun e => (e.index, e.mask b)) ↔
      ∃ id, ids[w.1]? = some id ∧ w.2 = constraint b c (requests id) [] 0 := by
    intro w
    rw [hperm.mem_iff]
    exact mem_singleRows
  have hindex : ∀ e ∈ batch, e.index < c.bitmaskRows := by
    intro e he
    obtain ⟨id, hid, -⟩ := (hmem (e.index, e.mask b)).mp (mem_map_of_mem he)
    exact (Ragged.lt_length_of_getElem? hid).trans_le hfit
  refine ⟨_, fillBitmasks_eq hindex, ?_⟩
  apply ext_getElem (by simp)
  intro p hp hp'
  have hlt : p < ids.length := by simpa using hp
  rw [getElem_map, getElem_map, getElem_range]
  apply writeAll_of_mem
  · exact (hmem _).mpr ⟨ids[p], getElem?_eq_getElem hlt, rfl⟩
  intro w hw hwp
  obtain ⟨id, hid, hval⟩ := (hmem w).mp hw
  rw [hwp, getElem?_eq_getElem hlt] at hid
  rw [hval, Option.some.inj hid]

theorem fillParallel_eq (pool : ThreadPool γ) (rows : Nat → Mask) (hnodup : ids.Nodup)
    (hs : ∀ id ∈ ids, (requests id).useStructuredOutput = true)
    (hfit : ids.length ≤ c.bitmaskRows) :
    ∃ f, fillParallel b c pool ⟨requests, rows, 0⟩ ids = .ok f ∧
      f.requests = updateEach (fun _ => settled c) requests ids ∧
      f.cumulativeIndex = ids.length ∧
      (range ids.length).map f.rows = ids.map fun id => constraint b c (requests id) [] 0 := by
  obtain ⟨d, hrun, hsame, hend, hall⟩ := run_dispatchRequest (b := b) (c := c)
    (d := ⟨requests, [], [], 0⟩) hnodup hs
  -- the last batch is submitted too if it holds anything
  have hflat : (if d.batch = [] then d.promises else d.promises ++ [d.batch]).flatten =
      d.promises.flatten ++ d.batch := by
    split_ifs with hnil
    · rw [hnil, append_nil]
    · rw [flatten_append, flatten_singleton]
  have hperm := (pool.perm (if d.batch = [] then d.promises else d.promises ++ [d.batch])).map
    fun e => (e.index, e.mask b)
  rw [hflat, hall] at hperm
  obtain ⟨rows', hfill, hrows⟩ := fillBitmasks_singleRows rows hfit hperm
  refine ⟨⟨d.requests, rows', d.cumulativeIndex⟩, ?_, hsame, by simpa using hend, hrows⟩
  simp only [fillParallel, hrun, bind, Except.bind, hfill]

omit [DecidableEq ι] in
theorem sum_numLogits_le {n : Nat} (h : ∀ id ∈ ids, (drafts id).length ≤ n) :
    (ids.map (numLogits drafts)).sum ≤ ids.length * (1 + n) := by
  induction ids with
  | nil => simp
  | cons id ids ih =>
    have hrest := ih fun k hk => h k (mem_cons_of_mem _ hk)
    have hid := h id mem_cons_self
    rw [map_cons, sum_cons, length_cons, numLogits, Nat.succ_mul]
    omega

theorem fillRows_eq (hb : b.Lawful) (pool : ThreadPool γ) (rows : Nat → Mask) (hnodup : ids.Nodup)
    (hs : ∀ id ∈ ids, (requests id).useStructuredOutput = true)
    (hvalid : ∀ id ∈ ids, DraftsValid b c (requests id) (drafts id))
    (hspec : ∀ id ∈ ids, (drafts id).length ≤ c.maxNumSpecTokens)
    (hfit : (ids.map (numLogits drafts)).sum ≤ c.bitmaskRows) :
    ∃ f, fillRows b c pool drafts ⟨requests, rows, 0⟩ ids = .ok f ∧
      f.requests = updateEach (fun _ => settled c) requests ids ∧
      f.cumulativeIndex = (ids.map (numLogits drafts)).sum ∧
      (range f.cumulativeIndex).map f.rows =
        ids.flatMap fun id => requestRows b c (requests id) (drafts id) := by
  unfold fillRows
  split_ifs with hpar
  · have hnone : ∀ id ∈ ids, drafts id = [] := fun id hid =>
      eq_nil_of_length_eq_zero (Nat.le_zero.mp (hpar.2 ▸ hspec id hid))
    have hlen : (ids.map (numLogits drafts)).sum = ids.length := by
      have hone : ids.map (numLogits drafts) = ids.map fun _ => 1 :=
        map_congr_left fun id hid => by rw [numLogits, hnone id hid]; rfl
      simp [hone]
    obtain ⟨f, hfill, hsame, hindex, hrows⟩ := fillParallel_eq (b := b) pool rows hnodup hs
      (hlen ▸ hfit)
    refine ⟨f, hfill, hsame, hindex.trans hlen.symm, ?_⟩
    rw [hindex, hrows, ← flatMap_pure_eq_map]
    exact flatMap_congr fun id hid => by simp [requestRows, hnone id hid]
  refine ⟨_, run_fillRequest hb hnodup hs hvalid (by simpa using hfit), rfl, Nat.zero_add _, ?_⟩
  have hlen : (ids.flatMap fun id => requestRows b c (requests id) (drafts id)).length =
      0 + (ids.map (numLogits drafts)).sum := by
    rw [length_flatMap, Nat.zero_add]
    congr 2
    funext id
    rw [length_requestRows, numLogits, Nat.add_comm]
  simp only [← hlen]
  exact range_map_writeSlice _ _

/-- `grammar_bitmask` returns the rows of the requests one after the other; of the requests it
only changes whether their reasoning is known to be over. -/
theorem grammarBitmask_eq (hb : b.Lawful) (pool : ThreadPool γ) (buffer : Option (Nat → Mask))
    (hne : ids ≠ []) (hnodup : ids.Nodup)
    (hs : ∀ id ∈ ids, (requests id).useStructuredOutput = true)
    (hvalid : ∀ id ∈ ids, DraftsValid b c (requests id) (drafts id))
    (hseqs : ids.length ≤ c.maxNumSeqs)
    (hspec : ∀ id ∈ ids, (drafts id).length ≤ c.maxNumSpecTokens) :
    ∃ buffer', grammarBitmask b c pool buffer requests ids drafts = .ok
      (some (ids.flatMap fun id => requestRows b c (requests id) (drafts id)), buffer',
        updateEach (fun _ => settled c) requests ids) := by
  have hfit : (ids.map (numLogits drafts)).sum ≤ c.bitmaskRows :=
    (sum_numLogits_le hspec).trans (Nat.mul_le_mul_right _ hseqs)
  obtain ⟨f, hfill, hsame, hindex, hrows⟩ := fillRows_eq hb pool (buffer.getD fun _ => fullMask)
    hnodup hs hvalid hspec hfit
  have hcut : (if f.cumulativeIndex < c.bitmaskRows then f.cumulativeIndex else c.bitmaskRows) =
      f.cumulativeIndex := by
    split_ifs <;> omega
  refine ⟨some f.rows, ?_⟩
  simp only [grammarBitmask, if_neg hne, hfill, bind, Except.bind, hcut, hrows, hsame]

end loops

end TailBlend.Grammar
