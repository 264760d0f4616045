import TailBlend.BudgetSimulation

/-! Runs of a row without draft tokens: the forced tokens and the first thinking section. -/
namespace TailBlend.ThinkingBudget
open TextSearch BudgetRequest List
variable {τ : Type} [DecidableEq τ]

structure Row (τ : Type) where
  entry : Entry τ
  output : List τ
  /-- Ghost: for each output token, the token that was forced for it. -/
  forced : List (Option τ)

/-- A step of the sampler for the row: its token is kept, or discarded as for a partial prefill. -/
inductive Event (τ : Type) where
  | sample (t : τ)
  | discard

namespace Row

def init (r : BudgetRequest τ) : Row τ where
  entry := r.markers.initStateEntry r.promptTokIds r.thinkingTokenBudget
  output := []
  forced := []

/-- A forced token is sampled, whatever the sampler would take without it. -/
def step (m : Markers τ) (row : Row τ) (event : Event τ) : Row τ :=
  let (entry, forced) := (row.entry.refresh m false row.output []).applyForcing m false
  match event with
  | .discard => { row with entry := entry }
  | .sample t =>
    let token := forced.head?.map Prod.snd
    { entry := entry
      output := row.output ++ [token.getD t]
      forced := row.forced ++ [token] }

def run (m : Markers τ) (row : Row τ) (events : List (Event τ)) : Row τ :=
  events.foldl (step m) row

theorem output_step (m : Markers τ) (row : Row τ) (event : Event τ) :
    row.output <+: (row.step m event).output := by
  cases event with
  | sample t => exact prefix_append _ _
  | discard => exact prefix_rfl

theorem output_run (m : Markers τ) (row : Row τ) (events : List (Event τ)) :
    row.output <+: (row.run m events).output := by
  induction events generalizing row with
  | nil => exact prefix_rfl
  | cons event events ih => exact (row.output_step m event).trans (ih _)

end Row

namespace BudgetRequest
variable (r : BudgetRequest τ)

variable {o o' : List τ} {r : BudgetRequest τ} {q : Nat}

omit [DecidableEq τ] in
theorem occursAt_grow (hp : o <+: o') {sub : List τ} (hne : sub ≠ []) {i : Nat}
    (h : OccursAt (r.tokens o) sub i) : OccursAt (r.tokens o') sub i :=
  (occursAt_append ((prefix_append_right_inj r.prompt).mpr hp) (h.end_le hne)).mpr h

theorem sectionStart_grow (hp : o <+: o') (h : r.sectionStart o = some q) :
    r.sectionStart o' = some q := by
  unfold sectionStart at h ⊢
  cases hq : r.promptSection with
  | some q' => rwa [hq] at h
  | none =>
    rw [hq, Option.none_or, Option.map_eq_some_iff] at h
    obtain ⟨i, hi, rfl⟩ := h
    obtain ⟨hocc, hlo, hfirst⟩ := (findFrom_window r.start_ne_nil).mp hi
    have hend : _ ≤ (r.prompt ++ o).length := hocc.end_le r.start_ne_nil
    rw [Option.none_or, (findFrom_window r.start_ne_nil).mpr
      ⟨occursAt_grow hp r.start_ne_nil hocc, hlo, fun j hj hlt hocc' => ?_⟩, Option.map_some]
    exact hfirst j hj hlt ((occursAt_append ((prefix_append_right_inj r.prompt).mpr hp)
      (by omega)).mp hocc')

theorem Clean.of_append (hp : o <+: o') (h : r.Clean o') : r.Clean o :=
  ⟨fun q hq => ⟨(h.1 q hq).1, fun j hj hle hocc =>
      (h.1 q hq).2 j hj hle (occursAt_grow hp r.end_ne_nil hocc)⟩,
    fun hnone => ⟨fun i hi hlt hocc => (h.2 hnone).1 i hi hlt (occursAt_grow hp r.start_ne_nil hocc),
      fun q hq j hj hle hocc => (h.2 hnone).2 q (sectionStart_grow hp hq) j hj hle
        (occursAt_grow hp r.end_ne_nil hocc)⟩⟩

/-- The last place where the end marker may begin. -/
def limit (q : Nat) : Nat := max (q + r.thinkingTokenBudget) r.prompt.length

def OpenUntil (o : List τ) (q n : Nat) : Prop :=
  ∀ p, q ≤ p → p + r.markers.thinkEndTokenIds.length ≤ n →
    ¬ OccursAt (r.tokens o) r.markers.thinkEndTokenIds p

def EndBegins (o : List τ) (p : Nat) : Prop :=
  p ≤ (r.tokens o).length ∧ ((r.tokens o).drop p <+: r.markers.thinkEndTokenIds ∨
    OccursAt (r.tokens o) r.markers.thinkEndTokenIds p)

/-- The forced tokens are one run of the end marker, from output token `k` on, which the section
reaches with its budget and without an end marker. -/
def ForcedOnce (o : List τ) (forced : List (Option τ)) (q : Nat) : Prop :=
  ∃ k n l, forced = replicate k none ++
      ((r.markers.thinkEndTokenIds.take n).map some ++ replicate l none) ∧
    (0 < n → 0 < l → n = r.markers.thinkEndTokenIds.length) ∧
    (0 < n → q ≤ r.prompt.length + k ∧ r.prompt.length + k ≤ r.limit q ∧
      r.OpenUntil o q (r.prompt.length + k))

def Respected (o : List τ) (forced : List (Option τ)) : Prop :=
  match r.sectionStart o with
  | none => ∀ f ∈ forced, f = none
  | some q => (∃ p, q ≤ p ∧ p ≤ r.limit q ∧ r.EndBegins o p) ∧ r.ForcedOnce o forced q

section
omit [DecidableEq τ]

theorem OpenUntil.grow (hp : o <+: o') {n : Nat} (hn : n ≤ (r.tokens o).length)
    (h : r.OpenUntil o q n) : r.OpenUntil o' q n := by
  intro p hq hle hocc
  exact h p hq hle ((occursAt_append ((prefix_append_right_inj r.prompt).mpr hp)
    (hle.trans hn)).mp hocc)

@[simp]
theorem tokens_length (o : List τ) : (r.tokens o).length = r.prompt.length + o.length :=
  length_append

theorem tokens_concat (o : List τ) (t : τ) : r.tokens (o ++ [t]) = r.tokens o ++ [t] :=
  (append_assoc ..).symm

theorem suffix_of_occursAt {sub : List τ} {p : Nat} (hle : r.prompt.length ≤ p)
    (hocc : OccursAt (r.tokens o) sub p) (hend : p + sub.length = (r.tokens o).length) :
    sub <:+ o := by
  have heq : sub = (r.tokens o).drop p := hocc.eq_of_length (by rw [length_drop]; omega)
  rw [heq, tokens, drop_append, drop_eq_nil_of_le hle]
  exact drop_suffix _ _

end

theorem sectionStart_cases (h : r.sectionStart o = some q) :
    r.promptSection = some q ∧ q ≤ r.prompt.length ∨
      r.promptSection = none ∧ r.prompt.length < q := by
  rcases Option.or_eq_some_iff.mp h with hq | ⟨hnone, hq⟩
  · obtain ⟨⟨hocc, -⟩, hq'⟩ := Option.ite_none_right_eq_some.mp hq
    exact .inl ⟨hq, Option.some.inj hq' ▸ hocc.end_le r.start_ne_nil⟩
  · obtain ⟨i, hi, rfl⟩ := Option.map_eq_some_iff.mp hq
    exact .inr ⟨hnone, ((findFrom_window r.start_ne_nil).mp hi).2.1⟩

theorem suffix_output {t : τ} {p : Nat} (hclean : r.Clean (o ++ [t]))
    (hq : r.sectionStart (o ++ [t]) = some q) (hp : q ≤ p)
    (hocc : OccursAt (r.tokens (o ++ [t])) r.markers.thinkEndTokenIds p)
    (hend : p + r.markers.thinkEndTokenIds.length = (r.tokens (o ++ [t])).length) :
    r.markers.thinkEndTokenIds <:+ o ++ [t] := by
  refine suffix_of_occursAt (not_lt.mp fun hlt => ?_) hocc hend
  rcases sectionStart_cases hq with ⟨hq, -⟩ | ⟨-, hlt'⟩
  · exact (hclean.1 q hq).2 p hlt (by omega) hocc
  · omega

theorem section_le (hclean : r.Clean o) (hq : r.sectionStart o = some q)
    (hs : r.markers.thinkEndTokenIds <:+ o) :
    q + r.markers.thinkEndTokenIds.length ≤ r.prompt.length + o.length := by
  have hlen := hs.length_le
  rcases sectionStart_cases hq with ⟨-, hle⟩ | ⟨hnone, -⟩
  · omega
  by_contra hlt
  refine (hclean.2 hnone).2 q hq
    (r.prompt.length + (o.length - r.markers.thinkEndTokenIds.length)) (by omega) (by omega) ?_
  obtain ⟨front, rfl⟩ := hs
  rw [occursAt_tokens, length_append, Nat.add_sub_cancel, OccursAt, drop_left]

theorem sectionStart_concat {t : τ} (hclean : r.Clean (o ++ [t])) (h : r.sectionStart o = none) :
    r.sectionStart (o ++ [t]) = if r.markers.thinkStartTokenIds <:+ o ++ [t] then
      some (r.prompt.length + (o ++ [t]).length) else none := by
  obtain ⟨hprompt, h⟩ := Option.or_eq_none_iff.mp h
  have hnone (i : Nat) (hi : r.prompt.length < i + r.markers.thinkStartTokenIds.length) :
      ¬ OccursAt (r.tokens o) r.markers.thinkStartTokenIds i := by
    intro hocc
    have hsome := (findFrom_window_isSome r.start_ne_nil).mpr
      ⟨i, hocc, hi, hocc.end_le r.start_ne_nil⟩
    rw [Option.map_eq_none_iff.mp h] at hsome
    cases hsome
  have hlast {i : Nat} (hi : r.prompt.length < i + r.markers.thinkStartTokenIds.length)
      (hocc : OccursAt (r.tokens (o ++ [t])) r.markers.thinkStartTokenIds i) :
      i + r.markers.thinkStartTokenIds.length = r.prompt.length + o.length + 1 := by
    rw [tokens_concat, occursAt_concat r.start_ne_nil, tokens_length] at hocc
    exact (hocc.resolve_left (hnone i hi)).2
  have hlen : (o ++ [t]).length = o.length + 1 := by simp
  rw [sectionStart, hprompt, Option.none_or]
  split_ifs with hs
  · have hle := hs.length_le
    obtain ⟨front, hfront⟩ := hs
    have hsum := congrArg length hfront
    rw [length_append] at hsum
    rw [(findFrom_window (i := r.prompt.length + front.length) r.start_ne_nil).mpr
      ⟨?_, by omega, fun j hj hlt hocc => ?_⟩, Option.map_some]
    · congr 1
      omega
    · rw [occursAt_tokens, ← hfront, OccursAt, drop_left]
    · have := hlast hj hocc
      omega
  rw [Option.map_eq_none_iff]
  by_contra hsome
  obtain ⟨i, hi⟩ := Option.ne_none_iff_exists'.mp hsome
  obtain ⟨hocc, hlt, -⟩ := (findFrom_window r.start_ne_nil).mp hi
  by_cases hin : i < r.prompt.length
  · exact (hclean.2 hprompt).1 i hin hlt hocc
  · refine hs (suffix_of_occursAt (not_lt.mp hin) hocc ?_)
    rw [tokens_length, hlast hlt hocc, hlen, Nat.add_assoc]

end BudgetRequest

def History (r : BudgetRequest τ) (o : List τ) (forced : List (Option τ)) : Phase → Prop
  | .waiting => r.sectionStart o = none ∧ forced = replicate o.length none
  | .thinking k => ∃ q, r.sectionStart o = some q ∧ r.prompt.length + o.length = q + k ∧
      k < r.thinkingTokenBudget ∧ r.OpenUntil o q (r.prompt.length + o.length) ∧
      forced = replicate o.length none
  | .ending n => ∃ q front, r.sectionStart o = some q ∧
      n < r.markers.thinkEndTokenIds.length ∧ o = front ++ r.markers.thinkEndTokenIds.take n ∧
      forced = replicate front.length none ++ (r.markers.thinkEndTokenIds.take n).map some ∧
      q ≤ r.prompt.length + front.length ∧ r.prompt.length + front.length ≤ r.limit q ∧
      r.OpenUntil o q (r.prompt.length + front.length)
  | .ended => ∃ q, r.sectionStart o = some q ∧ ∃ p, q ≤ p ∧ p ≤ r.limit q ∧
      OccursAt (r.tokens o) r.markers.thinkEndTokenIds p ∧
      (forced = replicate o.length none ∨ ∃ k l, r.prompt.length + k = p ∧
        forced = replicate k none ++
          (r.markers.thinkEndTokenIds.map some ++ replicate l none) ∧
        r.OpenUntil o q p)

namespace History
variable {r : BudgetRequest τ} {o : List τ} {forced : List (Option τ)}

theorem respected {φ : Phase} (h : History r o forced φ) : r.Respected o forced := by
  unfold Respected
  cases φ with
  | waiting =>
    obtain ⟨hq, hf⟩ := h
    rw [hq, hf]
    exact fun f hf => eq_of_mem_replicate hf
  | thinking k =>
    obtain ⟨q, hq, hlen, hk, hopen, hf⟩ := h
    rw [hq]
    refine ⟨⟨r.prompt.length + o.length, by omega, ?_, by simp, ?_⟩, o.length, 0, 0, ?_⟩
    · exact le_max_of_le_left (by omega)
    · rw [← r.tokens_length, drop_length]
      exact .inl nil_prefix
    · simp [hf]
  | ending n =>
    obtain ⟨q, front, hq, hn, ho, hf, hle, hlimit, hopen⟩ := h
    rw [hq]
    refine ⟨⟨r.prompt.length + front.length, hle, hlimit, by simp [ho], .inl ?_⟩,
      front.length, n, 0, by simpa using hf, fun _ h0 => absurd h0 (lt_irrefl 0),
      fun _ => ⟨hle, hlimit, hopen⟩⟩
    rw [ho, tokens, ← append_assoc, drop_append_of_le_length (by simp),
      ← length_append, drop_length]
    exact take_prefix _ _
  | ended =>
    obtain ⟨q, hq, p, hle, hlimit, hocc, hforced⟩ := h
    rw [hq]
    refine ⟨⟨p, hle, hlimit, (Nat.le_add_right ..).trans (hocc.end_le r.end_ne_nil), .inr hocc⟩, ?_⟩
    rcases hforced with hf | ⟨k, l, hk, hf, hopen⟩
    · exact ⟨o.length, 0, 0, by simp [hf], fun h0 => absurd h0 (lt_irrefl 0),
        fun h0 => absurd h0 (lt_irrefl 0)⟩
    · exact ⟨k, r.markers.thinkEndTokenIds.length, l, by rw [take_length]; exact hf,
        fun _ _ => rfl, fun _ => hk ▸ ⟨hle, hlimit, hopen⟩⟩

theorem spend {q k : Nat} (hq : r.sectionStart o = some q)
    (hlen : r.prompt.length + o.length = q + k) (hk : r.prompt.length + o.length ≤ r.limit q)
    (hopen : r.OpenUntil o q (r.prompt.length + o.length))
    (hf : forced = replicate o.length none) :
    History r o forced (Phase.spend r.thinkingTokenBudget k) := by
  unfold Phase.spend
  split_ifs with hb
  · exact ⟨q, o, hq, length_pos_iff.mpr r.end_ne_nil, by simp, by simp [hf], by omega, hk, hopen⟩
  · exact ⟨q, hq, hlen, by omega, hopen, hf⟩

theorem init (hclean : r.Clean []) : History r [] [] (.init r) := by
  unfold Phase.init
  have hsection := hclean.promptSection_eq
  by_cases hopen : r.opens = true
  · have hcount := (r.promptCount_eq hopen).2
    rw [if_pos hopen] at hsection ⊢
    refine spend (q := r.prompt.length - r.promptCount) ?_ (by simp; omega)
      (le_max_right ..) (fun p hq hle => (hclean.1 _ hsection).2 p ?_ (by omega)) rfl
    · rw [sectionStart, hsection, Option.some_or]
    · have := length_pos_iff.mpr r.end_ne_nil
      simp only [length_nil] at hle
      omega
  rw [if_neg hopen] at hsection ⊢
  refine ⟨?_, rfl⟩
  rw [sectionStart, hsection, Option.none_or, Option.map_eq_none_iff]
  by_contra hsome
  obtain ⟨i, hi⟩ := Option.ne_none_iff_exists'.mp hsome
  obtain ⟨hocc, hlt, -⟩ := (findFrom_window r.start_ne_nil).mp hi
  have := hocc.end_le r.start_ne_nil
  simp only [tokens_length, length_nil] at this
  omega

variable {t : τ}

theorem waiting_concat (hclean : r.Clean (o ++ [t])) (h : History r o forced .waiting) :
    History r (o ++ [t]) (forced ++ [none]) (Phase.next r (o ++ [t]) .waiting) := by
  obtain ⟨hq, hf⟩ := h
  have hf' : forced ++ [none] = replicate (o ++ [t]).length none := by
    rw [hf, length_append, length_singleton, replicate_succ']
  have hstart := sectionStart_concat hclean hq
  rw [Phase.next]
  split_ifs at hstart ⊢ with hs
  · refine spend hstart rfl (le_max_of_le_left (Nat.le_add_right ..)) (fun p hp hle => ?_) hf'
    have := length_pos_iff.mpr r.end_ne_nil
    omega
  · exact ⟨hstart, hf'⟩

theorem thinking_concat {k : Nat} (hclean : r.Clean (o ++ [t]))
    (h : History r o forced (.thinking k)) :
    History r (o ++ [t]) (forced ++ [none]) (Phase.next r (o ++ [t]) (.thinking k)) := by
  obtain ⟨q, hq, hlen, hk, hopen, hf⟩ := h
  have hf' : forced ++ [none] = replicate (o ++ [t]).length none := by
    rw [hf, length_append, length_singleton, replicate_succ']
  have hlen' : (o ++ [t]).length = o.length + 1 := by simp
  have hq' := r.sectionStart_grow (prefix_append o [t]) hq
  rw [Phase.next]
  split_ifs with hs
  · have hle := r.section_le hclean hq' hs
    refine ⟨q, hq', r.prompt.length + (o ++ [t]).length - r.markers.thinkEndTokenIds.length,
      by omega, le_max_of_le_left (by omega), ?_, .inl hf'⟩
    rw [r.tokens_concat, occursAt_concat r.end_ne_nil, r.tokens_length, ← r.tokens_concat]
    exact .inr ⟨hs.trans (suffix_append _ _), by omega⟩
  refine spend hq' (by omega) (le_max_of_le_left (by omega)) (fun p hp hle hocc => ?_) hf'
  by_cases hlt : p + r.markers.thinkEndTokenIds.length ≤ r.prompt.length + o.length
  · refine hopen p hp hlt ((occursAt_append ?_ (by simpa using hlt)).mp hocc)
    rw [r.tokens_concat]
    exact prefix_append _ _
  · exact hs (r.suffix_output hclean hq' hp hocc (by rw [r.tokens_length]; omega))

theorem ending_concat {n : Nat} (ht : r.markers.thinkEndTokenIds[n]? = some t)
    (h : History r o forced (.ending n)) :
    History r (o ++ [t]) (forced ++ [some t]) (Phase.next r (o ++ [t]) (.ending n)) := by
  obtain ⟨q, front, hq, hn, ho, hf, hle, hlimit, hopen⟩ := h
  have htake : r.markers.thinkEndTokenIds.take (n + 1) =
      r.markers.thinkEndTokenIds.take n ++ [t] := by
    rw [take_add_one, ht, Option.toList_some]
  have hq' := r.sectionStart_grow (prefix_append o [t]) hq
  have ho' : o ++ [t] = front ++ r.markers.thinkEndTokenIds.take (n + 1) := by
    rw [htake, ← append_assoc, ← ho]
  have hf' : forced ++ [some t] = replicate front.length none ++
      (r.markers.thinkEndTokenIds.take (n + 1)).map some := by
    rw [hf, htake, map_append, append_assoc]
    rfl
  have hopen' := hopen.grow (prefix_append o [t]) (by simp [ho])
  rw [Phase.next]
  split_ifs with hlt
  · exact ⟨q, front, hq', hlt, ho', hf', hle, hlimit, hopen'⟩
  rw [take_of_length_le (by omega)] at ho' hf'
  refine ⟨q, hq', r.prompt.length + front.length, hle, hlimit, ?_,
    .inr ⟨front.length, 0, rfl, by simpa using hf', hopen'⟩⟩
  rw [ho', tokens, ← append_assoc, OccursAt, ← length_append, drop_left]

theorem ended_concat (h : History r o forced .ended) :
    History r (o ++ [t]) (forced ++ [none]) .ended := by
  obtain ⟨q, hq, p, hle, hlimit, hocc, hforced⟩ := h
  have hend := hocc.end_le r.end_ne_nil
  refine ⟨q, r.sectionStart_grow (prefix_append o [t]) hq, p, hle, hlimit, ?_, ?_⟩
  · rw [r.tokens_concat]
    exact (occursAt_append (prefix_append _ _) hend).mpr hocc
  rcases hforced with hf | ⟨k, l, hk, hf, hopen⟩
  · refine .inl ?_
    rw [hf, length_append, length_singleton, replicate_succ']
  · refine .inr ⟨k, l + 1, hk, ?_, hopen.grow (prefix_append o [t]) (by omega)⟩
    rw [hf, replicate_succ', append_assoc, append_assoc]

theorem concat {φ : Phase} (hclean : r.Clean (o ++ [t])) (hforced : ∀ u ∈ φ.forced r.markers, t = u)
    (h : History r o forced φ) :
    History r (o ++ [t]) (forced ++ [φ.forced r.markers]) (φ.next r (o ++ [t])) := by
  cases φ with
  | waiting => exact h.waiting_concat hclean
  | thinking k => exact h.thinking_concat hclean
  | ended => exact h.ended_concat
  | ending n =>
    have hn : n < r.markers.thinkEndTokenIds.length := by
      obtain ⟨-, -, -, hn, -⟩ := h
      exact hn
    have hget : r.markers.thinkEndTokenIds[n]? = some r.markers.thinkEndTokenIds[n] :=
      getElem?_eq_getElem hn
    have ht : r.markers.thinkEndTokenIds[n]? = some t := by rw [hforced _ hget, hget]
    rw [Phase.forced, ht]
    exact h.ending_concat ht

end History
/-- A row between two updates: the row state is that of the output, or of the output without the
last token. -/
def Row.Follows (r : BudgetRequest τ) (row : Row τ) : Prop :=
  ∃ φ, History r row.output row.forced φ ∧
    (Tracks r row.output φ row.entry ∨
      ∃ o φ' t, Tracks r o φ' row.entry ∧ row.output = o ++ [t] ∧ φ = φ'.next r (o ++ [t]) ∧
        ∀ u ∈ φ'.forced r.markers, t = u)

namespace Row
variable {r : BudgetRequest τ} {row : Row τ}

theorem Follows.update (h : row.Follows r) (hclean : r.Clean row.output) :
    ∃ φ entry, History r row.output row.forced φ ∧ Tracks r row.output φ entry ∧
      (row.entry.refresh r.markers false row.output []).applyForcing r.markers false =
        (entry, ((φ.forced r.markers).map (fun t => (0, t))).toList) := by
  obtain ⟨φ, hhist, htracks | ⟨o, φ', t, htracks, hout, hφ, hforced⟩⟩ := h
  · have hagain := htracks.again hclean
    exact ⟨φ, _, hhist, hagain, htracks.applyForcing_refresh hagain⟩
  rw [hout] at hclean
  have hnext := htracks.concat hclean hforced
  rw [← hφ, ← hout] at hnext
  exact ⟨φ, _, hhist, hnext, htracks.applyForcing_refresh hnext⟩

theorem Follows.step (h : row.Follows r) (event : Event τ)
    (hclean : r.Clean (row.step r.markers event).output) :
    (row.step r.markers event).Follows r := by
  obtain ⟨φ, entry, hhist, htracks, hforce⟩ :=
    h.update (hclean.of_append (row.output_step r.markers event))
  cases event with
  | discard =>
    rw [Row.step, hforce]
    exact ⟨φ, hhist, .inl htracks⟩
  | sample t =>
    have htoken : (((φ.forced r.markers).map (fun t => (0, t))).toList.head?).map Prod.snd =
        φ.forced r.markers := by
      cases φ.forced r.markers <;> rfl
    have hstep : row.step r.markers (.sample t) =
        { entry := entry
          output := row.output ++ [(φ.forced r.markers).getD t]
          forced := row.forced ++ [φ.forced r.markers] } := by
      rw [Row.step, hforce]
      simp only [htoken]
    have hobeys : ∀ u ∈ φ.forced r.markers, (φ.forced r.markers).getD t = u := by
      intro u hu
      rw [Option.mem_def.mp hu, Option.getD_some]
    rw [hstep] at hclean ⊢
    exact ⟨_, hhist.concat hclean hobeys, .inr ⟨row.output, φ, _, htracks, rfl, rfl, hobeys⟩⟩

theorem Follows.run (h : row.Follows r) (events : List (Event τ))
    (hclean : r.Clean (row.run r.markers events).output) :
    (row.run r.markers events).Follows r := by
  induction events generalizing row with
  | nil => exact h
  | cons event events ih =>
    exact ih (h.step event (hclean.of_append (output_run r.markers _ events))) hclean

end Row

/-- In every run with clean tokens the first section keeps its budget, its end marker is forced at
most once and without a gap, and nothing is forced behind it. -/
theorem budget_respected (r : BudgetRequest τ) (events : List (Event τ))
    (hclean : r.Clean ((Row.init r).run r.markers events).output) :
    r.Respected ((Row.init r).run r.markers events).output
      ((Row.init r).run r.markers events).forced := by
  have hinit : (Row.init r).Follows r :=
    ⟨_, History.init (hclean.of_append nil_prefix), .inl (init_tracks r)⟩
  obtain ⟨φ, hhist, -⟩ := hinit.run events hclean
  exact hhist.respected

/-- The prompt is the start marker. -/
def promptRequest (token : Nat) (tokens : List Nat) : BudgetRequest Nat where
  markers := { thinkStartTokenIds := token :: tokens, thinkEndTokenIds := [9] }
  promptTokIds := some (token :: tokens)
  thinkingTokenBudget := 1
  start_ne_nil := cons_ne_nil _ _
  end_ne_nil := cons_ne_nil _ _

theorem budget_respected_prompt :
    ((Row.init (promptRequest 0 [])).run (promptRequest 0 []).markers
      [.discard, .sample 5, .sample 5, .sample 5]).output = [5, 9, 5] ∧
    (promptRequest 0 []).Respected
      ((Row.init (promptRequest 0 [])).run (promptRequest 0 []).markers
        [.discard, .sample 5, .sample 5, .sample 5]).output
      ((Row.init (promptRequest 0 [])).run (promptRequest 0 []).markers
        [.discard, .sample 5, .sample 5, .sample 5]).forced :=
  ⟨by decide +kernel, budget_respected _ _ (by decide +kernel)⟩

def outputRequest : BudgetRequest Nat where
  markers := { thinkStartTokenIds := [0], thinkEndTokenIds := [9] }
  promptTokIds := some []
  thinkingTokenBudget := 0
  start_ne_nil := cons_ne_nil _ _
  end_ne_nil := cons_ne_nil _ _

theorem not_respected_prompt {n : Nat} {o : List Nat} {forced : List (Option Nat)}
    (hq : (promptRequest 0 [n]).sectionStart o = some 2)
    (hend : ∀ p ∈ [2, 3], ¬ (promptRequest 0 [n]).EndBegins o p) :
    ¬ (promptRequest 0 [n]).Respected o forced := by
  intro h
  rw [Respected, hq] at h
  obtain ⟨⟨p, hp, hlimit, hbegins⟩, -⟩ := h
  have hlimit' : p ≤ 3 := hlimit
  obtain rfl | rfl : p = 2 ∨ p = 3 := by omega
  · exact hend 2 (by simp) hbegins
  · exact hend 3 (by simp) hbegins

/-- A start marker of two tokens in the prompt lets one token too many through; if it contains the
end marker, its section is not seen at all; and an end marker before the start marker lets the end
be forced again. -/
theorem budget_counter :
    (((Row.init (promptRequest 0 [1])).run (promptRequest 0 [1]).markers
        [.sample 5, .sample 5, .sample 5]).output = [5, 5, 9] ∧
      ¬ (promptRequest 0 [1]).Respected [5, 5, 9] [none, none, some 9]) ∧
    (((Row.init (promptRequest 0 [9])).run (promptRequest 0 [9]).markers
        [.sample 5, .sample 5, .sample 5]).output = [5, 5, 5] ∧
      ¬ (promptRequest 0 [9]).Respected [5, 5, 5] [none, none, none]) ∧
    ((Row.init outputRequest).run outputRequest.markers
        [.sample 9, .sample 0, .sample 5, .sample 5, .sample 5]).output = [9, 0, 9, 5, 9] ∧
      ((Row.init outputRequest).run outputRequest.markers
        [.sample 9, .sample 0, .sample 5, .sample 5, .sample 5]).forced =
          [none, none, some 9, none, some 9] ∧
      ¬ outputRequest.Respected [9, 0, 9, 5, 9] [none, none, some 9, none, some 9] := by
  refine ⟨⟨by decide +kernel, not_respected_prompt (by decide +kernel) ?_⟩,
    ⟨by decide +kernel, not_respected_prompt (by decide +kernel) ?_⟩,
    by decide +kernel, by decide +kernel, fun h => ?_⟩
  · unfold EndBegins
    decide +kernel
  · unfold EndBegins
    decide +kernel
  obtain ⟨-, k, n, l, hforced, -⟩ := h
  have hcount := congrArg (count (some 9)) hforced
  have hle : ((outputRequest.markers.thinkEndTokenIds.take n).map some).count (some 9) ≤ 1 :=
    count_le_length.trans (by simp [outputRequest])
  rw [count_append, count_append, count_replicate, count_replicate] at hcount
  simp only [reduceCtorEq, beq_iff_eq, if_false] at hcount
  have h2 : count (some 9) [none, none, some 9, none, some 9] = 2 := by decide
  omega

/-! The rows of a batch -/

namespace Entry

omit [DecidableEq τ] in
theorem applyForcing_places (m : Markers τ) (s : Entry τ) :
    (s.applyForcing m false).2 = [] ∨
      ∃ t, (s.applyForcing m false).2 = s.forceIndex.map (fun i => (i, t)) := by
  obtain ⟨s', hs', hforce⟩ : ∃ s', (if 0 < s.endCount then { s with bonusTokenForced := false }
      else s) = s' ∧ s'.forceIndex = s.forceIndex := by
    refine ⟨_, rfl, ?_⟩
    split_ifs <;> rfl
  unfold applyForcing
  simp only [Bool.false_eq_true, false_and, if_false, hs']
  split_ifs
  · exact .inl rfl
  · exact Or.inl rfl
  · split
    · exact .inl rfl
    · exact .inr ⟨_, by rw [hforce]⟩

omit [DecidableEq τ] in
theorem applyForcing_idle (m : Markers τ) {s : Entry τ} (h : s.forceIndex = []) :
    (s.applyForcing m false).2 = [] := by
  rcases applyForcing_places m s with hs | ⟨t, hs⟩
  · exact hs
  · rw [hs, h]
    rfl

theorem refresh_places (m : Markers τ) (o : List τ) (s : Entry τ) :
    ((s.refresh m false o []).applyForcing m false).2 = [] ∨
      ∃ t, ((s.refresh m false o []).applyForcing m false).2 = [(0, t)] := by
  by_cases hb : s.thinkingTokenBudget = -1
  · refine .inl (applyForcing_idle m ?_)
    unfold refresh updateThinkState
    rw [if_pos hb]
  by_cases hne : m.thinkEndTokenIds = []
  · refine Or.inl (applyForcing_idle m ?_)
    unfold refresh updateThinkState
    rw [if_neg hb, if_pos hne]
  rw [refresh_eq hb hne]
  by_cases hs : (s.observe m o).startThinking = -1
  · rw [if_pos hs]
    exact Or.inl (applyForcing_idle m rfl)
  rw [if_neg hs]
  by_cases hin : ((s.observe m o).countDown m).inEnd = true
  · rcases applyForcing_places m ((s.observe m o).countDown m) with hnil | ⟨t, ht⟩
    · exact .inl hnil
    · rw [countDown_forceIndex rfl hin] at ht
      exact .inr ⟨t, ht⟩
  · rw [applyForcing, if_pos (Bool.not_eq_true _ ▸ hin)]
    exact .inl rfl

end Entry

namespace StateHolder

variable {h : StateHolder τ} {numLogits : Nat}

section
omit [DecidableEq τ]

theorem cuNumTokens_eq (hspec : h.numSpecTokens = 0) (b : Bool) (specs : List (List τ)) (i : Nat) :
    h.cuNumTokens b specs i = i := by
  have hspan : h.rowSpan b specs = fun _ => 1 := by
    funext j
    simp [rowSpan, inSpecMode, hspec]
  rw [cuNumTokens, hspan]
  simp

def applied (h : StateHolder τ) (numLogits n : Nat) : StateHolder τ × (Nat → Option τ) :=
  ({ h with
      state := fun i => if i < n then
        (h.state i).map (fun s => (s.applyForcing h.markers false).1) else h.state i },
    fun i => if i < n ∧ i < min h.maxNumReqs numLogits then
      (h.state i).bind (fun s => ((s.applyForcing h.markers false).2.head?).map Prod.snd)
      else none)

theorem applied_succ_none {n : Nat} (hs : h.state n = none) :
    h.applied numLogits (n + 1) = h.applied numLogits n := by
  have hlt (i : Nat) (hi : i ≠ n) : i < n + 1 ↔ i < n := by omega
  unfold applied
  congr 2
  · funext i
    by_cases hi : i = n
    · simp [hi, hs]
    · simp only [hlt i hi]
  funext i
  by_cases hi : i = n
  · simp [hi, hs]
  · simp only [hlt i hi]

theorem applied_succ_some {n : Nat} {s s' : Entry τ} {forced : List (Nat × τ)}
    (hs : h.state n = some s) (happly : s.applyForcing h.markers false = (s', forced))
    (hplaces : forced = [] ∨ ∃ t, forced = [(0, t)]) :
    h.applied numLogits (n + 1) =
      ({ h with state := Function.update (h.applied numLogits n).1.state n (some s') },
        setMask (min h.maxNumReqs numLogits) n (h.applied numLogits n).2 forced) := by
  have hlt (i : Nat) (hi : i ≠ n) : i < n + 1 ↔ i < n := by omega
  unfold applied
  congr 2
  · funext i
    by_cases hi : i = n
    · simp [hi, hs, happly]
    · simp only [hlt i hi, Function.update_of_ne hi]
  funext i
  rcases hplaces with hnil | ⟨t, ht⟩
  · by_cases hi : i = n
    · simp [hi, hs, happly, hnil, setMask]
    · simp only [hlt i hi, hnil, setMask, foldl_nil]
  simp only [ht, setMask, foldl_cons, foldl_nil, Nat.add_zero]
  by_cases hsize : n < min h.maxNumReqs numLogits
  · rw [if_pos hsize]
    by_cases hi : i = n
    · rw [hi, if_pos ⟨Nat.lt_succ_self n, hsize⟩, hs]
      simp [happly, ht]
    · rw [Function.update_of_ne hi]
      simp only [hlt i hi]
  · rw [if_neg hsize]
    by_cases hi : i = n
    · rw [hi, if_neg (fun hc => hsize hc.2), if_neg (fun hc => hsize hc.2)]
    · simp only [hlt i hi]

def forceRow (h : StateHolder τ) (numLogits : Nat) (acc : StateHolder τ × (Nat → Option τ))
    (index : Nat) : StateHolder τ × (Nat → Option τ) :=
  match acc.1.state index with
  | none => acc
  | some s =>
    ({ acc.1 with
        state := Function.update acc.1.state index (some (s.applyForcing h.markers false).1) },
      setMask (min h.maxNumReqs numLogits) index acc.2 (s.applyForcing h.markers false).2)

theorem applyForcingToLogits_eq (hspec : h.numSpecTokens = 0)
    (hplaces : ∀ i, ∀ s ∈ h.state i, (s.applyForcing h.markers false).2 = [] ∨
      ∃ t, (s.applyForcing h.markers false).2 = [(0, t)]) (numLogits : Nat) :
    h.applyForcingToLogits false [] numLogits = h.applied numLogits h.maxNumReqs := by
  have hsize : min (h.maxNumReqs * (h.numSpecTokens + 1)) numLogits =
      min h.maxNumReqs numLogits := by simp [hspec]
  unfold applyForcingToLogits
  simp only [hsize, cuNumTokens_eq hspec]
  have hrows (n : Nat) : (range n).foldl (h.forceRow numLogits) (h, fun _ => none) =
      h.applied numLogits n := by
    induction n with
    | zero => simp [applied]
    | succ n ih =>
      rw [range_succ, foldl_append, ih, foldl_cons]
      have hstate : (h.applied numLogits n).1.state n = h.state n := if_neg (lt_irrefl n)
      rw [forceRow, hstate]
      cases hs : h.state n with
      | none => exact (applied_succ_none hs).symm
      | some s => exact (applied_succ_some hs rfl (hplaces n s hs)).symm
  exact hrows h.maxNumReqs

end

/-- A step of the sampler without draft tokens acts on each row as on a single one. -/
theorem sampler_row (hspec : h.numSpecTokens = 0) {outs : List (List τ)}
    (hall : ∀ i, ∀ s ∈ h.state i, i < outs.length) {i : Nat} (hi : i < h.maxNumReqs)
    (hlogits : i < numLogits) (row : Row τ) (hstate : h.state i = some row.entry)
    (hout : outs[i]? = some row.output) (t : τ) :
    ((h.updateState outs none none).applyForcingToLogits false [] numLogits).1.state i =
        some (row.step h.markers (.sample t)).entry ∧
      (row.step h.markers (.sample t)).forced = row.forced ++
        [((h.updateState outs none none).applyForcingToLogits false [] numLogits).2 i] := by
  have hmode : h.inSpecMode = false := by simp [inSpecMode, hspec]
  have hrow : ∀ j, ∀ s ∈ (h.updateState outs none none).state j, ∃ (s' : Entry τ) (o : List τ),
      s = s'.refresh h.markers false o [] := by
    intro j s hs
    obtain ⟨s', hs', rfl⟩ := Option.map_eq_some_iff.mp (Option.mem_def.mp hs)
    have hj := hall j s' hs'
    refine ⟨s', outs[j], ?_⟩
    simp [outputRow, hj, hmode]
  have hi' : (h.updateState outs none none).state i =
      some (row.entry.refresh h.markers false row.output []) := by
    simp [updateState, hstate, outputRow, hout, hmode]
  rw [applyForcingToLogits_eq (by exact hspec) (fun j s hs => by
    obtain ⟨s', o, rfl⟩ := hrow j s hs
    exact s'.refresh_places h.markers o)]
  constructor
  · simp only [applied]
    rw [if_pos (by exact hi), hi']
    rfl
  · simp only [applied]
    rw [if_pos ⟨by exact hi, lt_min (hi) hlogits⟩, hi']
    rfl

/-- The first row has spent its budget, the second has no section yet. -/
def spentRow : Row Nat := (Row.init (promptRequest 0 [])).run outputRequest.markers [.sample 5]

def waitingRow : Row Nat := (Row.init outputRequest).run outputRequest.markers [.sample 3]

def twoRows : StateHolder Nat :=
  ⟨outputRequest.markers, 2, 0, fun i => [spentRow.entry, waitingRow.entry][i]?⟩

theorem sampler_row_two :
    let s := (twoRows.updateState [[5], [3]] none none).applyForcingToLogits false [] 2
    s.1.state 0 = some (spentRow.step twoRows.markers (.sample 6)).entry ∧ s.2 0 = some 9 ∧
      s.1.state 1 = some (waitingRow.step twoRows.markers (.sample 6)).entry ∧ s.2 1 = none := by
  have hall : ∀ i, ∀ s ∈ twoRows.state i, i < [[5], [3]].length :=
    fun i s hs => (List.getElem?_eq_some_iff.mp hs).1
  obtain ⟨h0, hf0⟩ := sampler_row rfl hall Nat.two_pos Nat.two_pos spentRow rfl
    (by decide +kernel) 6
  obtain ⟨h1, hf1⟩ := sampler_row rfl hall Nat.one_lt_two Nat.one_lt_two waitingRow rfl
    (by decide +kernel) 6
  have he0 : (spentRow.step twoRows.markers (.sample 6)).forced = [none] ++ [some 9] := by
    decide +kernel
  have he1 : (waitingRow.step twoRows.markers (.sample 6)).forced = [none] ++ [none] := by
    decide +kernel
  exact ⟨h0, singleton_inj.mp (append_cancel_left (hf0.symm.trans he0)), h1,
    singleton_inj.mp (append_cancel_left (hf1.symm.trans he1))⟩

end StateHolder
end TailBlend.ThinkingBudget
