import TailBlend.ThinkingBudget
import Mathlib.Tactic.Linarith

/-! The phases of a thinking section without draft tokens, and the row state that follows them. -/
namespace TailBlend.ThinkingBudget
open TextSearch List
variable {τ : Type} [DecidableEq τ]

/-! Positions of markers -/

variable {ids o : List τ} {x : Int}

theorem find?_reverse_range {p : Nat → Bool} {n i j : Nat}
    (h : (range n).reverse.find? p = some i) (hi : i < j) (hj : j < n) : p j = false := by
  induction n with
  | zero => omega
  | succ n ih =>
    rw [range_succ, reverse_append, reverse_singleton, singleton_append, find?_cons] at h
    cases hp : p n with
    | true =>
      rw [hp] at h
      cases h
      omega
    | false =>
      rw [hp] at h
      rcases eq_or_lt_of_le (Nat.le_of_lt_succ hj) with rfl | hlt
      · exact hp
      · exact ih h hlt

theorem findLastSequenceIndex_spec {l : List τ} (hne : ids ≠ []) :
    (findLastSequenceIndex l ids = -1 ∧ ∀ i, ¬ OccursAt l ids i) ∨
      ∃ i : Nat, findLastSequenceIndex l ids = i ∧ OccursAt l ids i ∧
        ∀ j, i < j → ¬ OccursAt l ids j := by
  have hocc (i : Nat) : (l.drop i).take ids.length = ids ↔ OccursAt l ids i := by
    rw [OccursAt, prefix_iff_eq_take, eq_comm]
  unfold findLastSequenceIndex
  rw [if_neg hne]
  simp only [hocc]
  cases hfind : (range (l.length + 1 - ids.length)).reverse.find?
      (fun i => decide (OccursAt l ids i)) with
  | none =>
    refine .inl ⟨rfl, fun i hi => ?_⟩
    have hend := hi.end_le hne
    rw [find?_eq_none] at hfind
    exact hfind i (mem_reverse.mpr (mem_range.mpr (by omega))) (decide_eq_true hi)
  | some i =>
    have hi := find?_some hfind
    refine .inr ⟨i, rfl, of_decide_eq_true hi, fun j hj hocc => ?_⟩
    have hend := hocc.end_le hne
    exact of_decide_eq_false (find?_reverse_range hfind hj (by omega)) hocc

def Located (o ids : List τ) (x : Int) : Prop :=
  (x = -1 ∧ ∀ i, ¬ OccursAt o ids i) ∨
    ∃ i : Nat, x = i ∧ OccursAt o ids i ∧ ∀ j, j < i → ¬ OccursAt o ids j

def relocate (o ids : List τ) (x : Int) : Int :=
  if x = -1 then findLastSequenceIndex o ids else x

theorem Located.relocate (hne : ids ≠ []) (h : Located o ids x) : relocate o ids x = x := by
  unfold ThinkingBudget.relocate
  rcases h with ⟨hx, hnone⟩ | ⟨i, hx, -⟩
  · rw [if_pos hx]
    rcases findLastSequenceIndex_spec (l := o) hne with ⟨hl, -⟩ | ⟨i, -, hocc⟩
    · exact hl.trans hx.symm
    · exact absurd hocc.1 (hnone i)
  · exact if_neg (by omega)

theorem Located.concat (hne : ids ≠ []) (h : Located o ids x) (t : τ) :
    Located (o ++ [t]) ids (ThinkingBudget.relocate (o ++ [t]) ids x) := by
  unfold ThinkingBudget.relocate
  rcases h with ⟨hx, hnone⟩ | ⟨i, hx, hocc, hfirst⟩
  · rw [if_pos hx]
    rcases findLastSequenceIndex_spec (l := o ++ [t]) hne with hl | ⟨i, hl, hocc, -⟩
    · exact .inl hl
    refine .inr ⟨i, hl, hocc, fun j hj hocc' => ?_⟩
    rcases (occursAt_concat hne).mp hocc with h1 | ⟨-, h1⟩
    · exact hnone i h1
    · rcases (occursAt_concat hne).mp hocc' with h2 | ⟨-, h2⟩
      · exact hnone j h2
      · omega
  rw [if_neg (by omega)]
  refine .inr ⟨i, hx, (occursAt_concat hne).mpr (.inl hocc), fun j hj hocc' => ?_⟩
  rcases (occursAt_concat hne).mp hocc' with h2 | ⟨-, h2⟩
  · exact hfirst j hj h2
  · have := hocc.end_le hne
    omega

omit [DecidableEq τ] in
theorem Located.nonneg (h : Located o ids x) (hx : x ≠ -1) : 0 ≤ x := by
  rcases h with ⟨h, -⟩ | ⟨i, h, -⟩
  · exact absurd h hx
  · omega

omit [DecidableEq τ] in
theorem Located.of_suffix {t : τ} (hne : ids ≠ []) (h : Located (o ++ [t]) ids x)
    (hs : ids <:+ o ++ [t]) : x ≠ -1 := by
  rcases h with ⟨-, hnone⟩ | ⟨i, hx, -⟩
  · have hlen := hs.length_le
    rw [length_append, length_singleton] at hlen
    have := (occursAt_concat (i := o.length + 1 - ids.length) hne).mpr (.inr ⟨hs, by omega⟩)
    exact absurd this (hnone _)
  · omega

theorem located_concat_eq {t : τ} (hne : ids ≠ []) (h : Located o ids (-1))
    (h' : Located (o ++ [t]) ids x) :
    (x = -1 ∧ ¬ ids <:+ o ++ [t]) ∨ (ids <:+ o ++ [t] ∧ x + ids.length = o.length + 1) := by
  rcases h with ⟨-, hnone⟩ | ⟨i, hi, -⟩
  · rcases h' with ⟨hx, hnone'⟩ | ⟨i, hx, hocc, -⟩
    · refine .inl ⟨hx, fun hs => ?_⟩
      exact Located.of_suffix hne (.inl ⟨hx, hnone'⟩) hs hx
    · rcases (occursAt_concat hne).mp hocc with h1 | ⟨hs, h1⟩
      · exact absurd h1 (hnone i)
      · exact .inr ⟨hs, by omega⟩
  · omega

/-! Requests and phases -/

/-- A request with a budget, and the markers of the model. -/
structure BudgetRequest (τ : Type) where
  markers : Markers τ
  promptTokIds : Option (List τ)
  thinkingTokenBudget : Nat
  start_ne_nil : markers.thinkStartTokenIds ≠ []
  end_ne_nil : markers.thinkEndTokenIds ≠ []

namespace BudgetRequest

variable (r : BudgetRequest τ)

def prompt : List τ := r.promptTokIds.getD []

def tokens (o : List τ) : List τ := r.prompt ++ o

/-- The place behind the last start marker of the prompt, unless an end marker follows there. -/
def promptSection : Option Nat :=
  let i := Nat.findGreatest (OccursAt r.prompt r.markers.thinkStartTokenIds) r.prompt.length
  let q := i + r.markers.thinkStartTokenIds.length
  if OccursAt r.prompt r.markers.thinkStartTokenIds i ∧
    findFrom r.prompt r.markers.thinkEndTokenIds q = none then some q else none

/-- The place in the prompt and the output where the first section starts: the prompt leaves it
open, or the first start marker that ends in the output opens it. -/
def sectionStart (o : List τ) : Option Nat :=
  r.promptSection.or ((findFrom (r.tokens o) r.markers.thinkStartTokenIds
    (r.prompt.length + 1 - r.markers.thinkStartTokenIds.length)).map
      (fun i => i + r.markers.thinkStartTokenIds.length))

/-- What the code takes for an open section of the prompt. -/
def opens (r : BudgetRequest τ) : Bool := r.markers.opens r.promptTokIds

/-- The tokens of the prompt that are behind its open start marker. -/
def promptCount : Nat := (r.markers.promptThinkCount r.prompt).toNat

theorem promptCount_eq (h : r.opens = true) : r.markers.promptThinkCount r.prompt = r.promptCount ∧
      r.promptCount + r.markers.thinkStartTokenIds.length ≤ r.prompt.length := by
  obtain ⟨prompt, hprompt⟩ : ∃ p, r.promptTokIds = some p := by
    cases hp : r.promptTokIds with
    | none => simp [opens, hp, Markers.opens] at h
    | some p => exact ⟨p, rfl⟩
  have hgt : findLastSequenceIndex prompt r.markers.thinkEndTokenIds <
      findLastSequenceIndex prompt r.markers.thinkStartTokenIds := by
    simpa [opens, hprompt, Markers.opens] using h
  have hp : r.prompt = prompt := by simp [BudgetRequest.prompt, hprompt]
  rcases findLastSequenceIndex_spec (l := prompt) r.start_ne_nil with ⟨hs, -⟩ | ⟨i, hs, hocc, -⟩
  · rcases findLastSequenceIndex_spec (l := prompt) r.end_ne_nil with ⟨he, -⟩ | ⟨j, he, -⟩ <;> omega
  have hend := hocc.end_le r.start_ne_nil
  have hcount : r.markers.promptThinkCount r.prompt =
      prompt.length - (i + r.markers.thinkStartTokenIds.length) := by
    rw [Markers.promptThinkCount, hp, hs]
  unfold promptCount
  rw [hcount, hp]
  omega

/-- What the theorem needs of the prompt and the sampled tokens: a section of the prompt has a start
marker of one token or has spent the budget, and no end marker begins in the prompt from that start
marker on. A section of the output has its start marker there, and no end marker begins in the
output before the end of that. -/
def Clean (o : List τ) : Prop :=
  (∀ q ∈ r.promptSection,
    (r.markers.thinkStartTokenIds.length = 1 ∨ r.thinkingTokenBudget ≤ r.prompt.length - q) ∧
      ∀ j < r.prompt.length, q ≤ j + r.markers.thinkStartTokenIds.length →
        ¬ OccursAt (r.tokens o) r.markers.thinkEndTokenIds j) ∧
  (r.promptSection = none →
    (∀ i < r.prompt.length, r.prompt.length < i + r.markers.thinkStartTokenIds.length →
      ¬ OccursAt (r.tokens o) r.markers.thinkStartTokenIds i) ∧
    ∀ q ∈ r.sectionStart o, ∀ j < q, r.prompt.length ≤ j →
      ¬ OccursAt (r.tokens o) r.markers.thinkEndTokenIds j)

instance (o : List τ) : Decidable (r.Clean o) := by
  unfold Clean
  infer_instance

variable {r} {o : List τ}

/-- With clean tokens the code opens a section in the prompt where there is one. -/
theorem Clean.promptSection_eq (h : r.Clean o) : r.promptSection =
    if r.opens then some (r.prompt.length - r.promptCount) else none := by
  have hopens : r.opens = true ↔ findLastSequenceIndex r.prompt r.markers.thinkEndTokenIds <
      findLastSequenceIndex r.prompt r.markers.thinkStartTokenIds := by
    cases hp : r.promptTokIds with
    | some p => simp [opens, prompt, hp, Markers.opens]
    | none =>
      have hs := Nat.sub_eq_zero_of_le (length_pos_iff.mpr r.start_ne_nil)
      have he := Nat.sub_eq_zero_of_le (length_pos_iff.mpr r.end_ne_nil)
      simp [opens, prompt, hp, Markers.opens, findLastSequenceIndex, hs, he]
  have hends := findLastSequenceIndex_spec (l := r.prompt) r.end_ne_nil
  rcases findLastSequenceIndex_spec (l := r.prompt) r.start_ne_nil with
    ⟨hs, hnone⟩ | ⟨i, hs, hocc, hlast⟩
  · rw [promptSection, if_neg (fun hc => hnone _ hc.1), if_neg]
    rw [hopens]
    rcases hends with ⟨he, -⟩ | ⟨j, he, -⟩ <;> omega
  have hend := hocc.end_le r.start_ne_nil
  have hi : Nat.findGreatest (OccursAt r.prompt r.markers.thinkStartTokenIds) r.prompt.length =
      i := by
    refine le_antisymm (not_lt.mp fun hlt => ?_) (Nat.le_findGreatest (by omega) hocc)
    exact hlast _ hlt (Nat.findGreatest_spec (by omega) hocc)
  have hcount : r.promptCount =
      r.prompt.length - (i + r.markers.thinkStartTokenIds.length) := by
    rw [promptCount, Markers.promptThinkCount]
    omega
  cases hsection : r.promptSection with
  | some q =>
    obtain ⟨-, hq⟩ := Option.ite_none_right_eq_some.mp hsection
    rw [if_pos, ← Option.some.inj hq]
    · congr 1
      omega
    rw [hopens]
    rcases hends with ⟨he, -⟩ | ⟨j, he, hocc', -⟩
    · omega
    by_contra hle
    have := hocc'.end_le r.end_ne_nil
    have := length_pos_iff.mpr r.end_ne_nil
    refine (h.1 q hsection).2 j (by omega) (by have := Option.some.inj hq; omega) ?_
    exact (occursAt_append (prefix_append _ _) (hocc'.end_le r.end_ne_nil)).mpr hocc'
  | none =>
    rw [promptSection, hi] at hsection
    simp only [hocc, true_and, ite_eq_right_iff, reduceCtorEq] at hsection
    obtain ⟨j, hj⟩ := Option.ne_none_iff_exists'.mp hsection
    obtain ⟨hocc', hle, -⟩ := (findFrom_eq_some r.end_ne_nil).mp hj
    rw [if_neg]
    rw [hopens]
    rcases hends with ⟨-, hnone⟩ | ⟨k, he, -, hlast'⟩
    · exact absurd hocc' (hnone j)
    · have := not_lt.mp fun hlt => hlast' j hlt hocc'
      omega

omit [DecidableEq τ] in
theorem occursAt_tokens {sub : List τ} {i : Nat} :
    OccursAt (r.tokens o) sub (r.prompt.length + i) ↔ OccursAt o sub i := by
  rw [OccursAt, tokens, drop_append, drop_eq_nil_of_le (by omega), nil_append,
    Nat.add_sub_cancel_left, OccursAt]

/-- In the output the section starts with the first start marker, and the end markers follow. -/
theorem Clean.of_closed (h : r.Clean o) (hopen : ¬ r.opens = true) {i : Nat}
    (hocc : OccursAt o r.markers.thinkStartTokenIds i)
    (hfirst : ∀ j, j < i → ¬ OccursAt o r.markers.thinkStartTokenIds j) {j : Nat}
    (hend : OccursAt o r.markers.thinkEndTokenIds j) :
    i + r.markers.thinkStartTokenIds.length ≤ j := by
  have hnone : r.promptSection = none := by rw [h.promptSection_eq, if_neg hopen]
  obtain ⟨hstraddle, hends⟩ := h.2 hnone
  have hpos := length_pos_iff.mpr r.start_ne_nil
  have hstart : r.sectionStart o =
      some (r.prompt.length + i + r.markers.thinkStartTokenIds.length) := by
    rw [sectionStart, hnone, Option.none_or, (findFrom_window r.start_ne_nil).mpr
      ⟨occursAt_tokens.mpr hocc, by omega, fun k hk hlt hocc' => ?_⟩, Option.map_some]
    by_cases hin : k < r.prompt.length
    · exact hstraddle k hin hk hocc'
    · refine hfirst (k - r.prompt.length) (by omega) (occursAt_tokens (r := r).mp ?_)
      rwa [Nat.add_sub_cancel' (not_lt.mp hin)]
  by_contra hlt
  exact hends _ hstart (r.prompt.length + j) (by omega) (by omega) (occursAt_tokens.mpr hend)

end BudgetRequest

/-- The phases of the first section: before it, with `k` tokens, with `n` forced tokens, behind it. -/
inductive Phase where
  | waiting
  | thinking (k : Nat)
  | ending (n : Nat)
  | ended
  deriving DecidableEq, Repr

namespace Phase

def spend (budget k : Nat) : Phase := if budget ≤ k then .ending 0 else .thinking k

def init (r : BudgetRequest τ) : Phase :=
  if r.opens then spend r.thinkingTokenBudget r.promptCount else .waiting

def next (r : BudgetRequest τ) (o : List τ) : Phase → Phase
  | .waiting =>
    if r.markers.thinkStartTokenIds <:+ o then spend r.thinkingTokenBudget 0 else .waiting
  | .thinking k =>
    if r.markers.thinkEndTokenIds <:+ o then .ended else spend r.thinkingTokenBudget (k + 1)
  | .ending n => if n + 1 < r.markers.thinkEndTokenIds.length then .ending (n + 1) else .ended
  | .ended => .ended

def forced (m : Markers τ) : Phase → Option τ
  | .ending n => m.thinkEndTokenIds[n]?
  | _ => none

end Phase

def InPhase (r : BudgetRequest τ) (o : List τ) (e : Entry τ) : Phase → Prop
  | .waiting => e.startThinking = -1 ∧ e.inEnd = false ∧ e.prevOutputLength = 0 ∧
      e.checkCountDown = r.thinkingTokenBudget
  | .thinking k => e.inEnd = false ∧ e.endThinking = -1 ∧ e.prevOutputLength = o.length ∧
      1 ≤ e.checkCountDown ∧ e.checkCountDown + k ≤ r.thinkingTokenBudget ∧
      if r.opens then e.inThink = true ∧ k = o.length + r.promptCount
      else e.startThinking ≠ -1 ∧
        (o.length : Int) = e.startThinking + r.markers.thinkStartTokenIds.length + k
  | .ending n => e.inEnd = true ∧ e.endCount = n ∧ n < r.markers.thinkEndTokenIds.length ∧
      e.prevOutputLength = o.length ∧ r.markers.thinkEndTokenIds.take n <:+ o ∧
      e.startThinking ≠ -1
  | .ended => e.inEnd = false ∧ e.endThinking ≠ -1 ∧ e.startThinking ≠ -1

structure Tracks (r : BudgetRequest τ) (o : List τ) (φ : Phase) (e : Entry τ) : Prop where
  budget : e.thinkingTokenBudget = r.thinkingTokenBudget
  prompt : e.promptTokIds = r.promptTokIds
  bonus : e.bonusTokenForced = false
  continues : e.continueThinking = r.opens
  start : if r.opens then e.startThinking = r.prompt.length - r.promptCount - 1
    else Located o r.markers.thinkStartTokenIds e.startThinking
  stop : Located o r.markers.thinkEndTokenIds e.endThinking
  phase : InPhase r o e φ

theorem init_tracks (r : BudgetRequest τ) :
    Tracks r [] (.init r) (r.markers.initStateEntry r.promptTokIds r.thinkingTokenBudget) := by
  have hnone (ids : List τ) (hne : ids ≠ []) : Located [] ids (-1) := by
    refine .inl ⟨rfl, fun i hi => ?_⟩
    have := hi.end_le hne
    have := length_pos_iff.mpr hne
    simp only [length_nil] at *
    omega
  have hthink : r.markers.opens r.promptTokIds = r.opens := rfl
  refine ⟨rfl, rfl, rfl, rfl, ?_, hnone _ r.end_ne_nil, ?_⟩
  · by_cases hopen : r.opens = true
    · have := (r.promptCount_eq hopen).1
      simp only [Markers.initStateEntry, hthink, hopen]
      rw [← this]
      rfl
    · simp only [Markers.initStateEntry, hthink, hopen]
      exact hnone _ r.start_ne_nil
  by_cases hopen : r.opens = true
  · obtain ⟨hcount, hle⟩ := r.promptCount_eq hopen
    have hcount' : r.markers.promptThinkCount (r.promptTokIds.getD []) = r.promptCount := hcount
    have hstart := length_pos_iff.mpr r.start_ne_nil
    have hend := length_pos_iff.mpr r.end_ne_nil
    have hlen : (r.promptTokIds.getD []).length = r.prompt.length := rfl
    simp only [Phase.init, Phase.spend]
    split_ifs with hb
    · simp only [InPhase, Markers.initStateEntry, hthink, hopen, if_true, Bool.true_and,
        decide_eq_true_eq, take_zero, nil_suffix, length_nil, true_and]
      omega
    · simp only [InPhase, Markers.initStateEntry, hthink, hopen, if_true, Bool.true_and,
        decide_eq_false_iff_not, length_nil, true_and]
      omega
  · simp [Phase.init, hopen, InPhase, Markers.initStateEntry, hthink]

/-! The update of a row without draft tokens -/

namespace Entry

/-- What an update of a located row leaves alone. -/
structure Frame (s s' : Entry τ) : Prop where
  budget : s'.thinkingTokenBudget = s.thinkingTokenBudget
  prompt : s'.promptTokIds = s.promptTokIds
  bonus : s.bonusTokenForced = false → s'.bonusTokenForced = false
  continues : s'.continueThinking = s.continueThinking
  start : s'.startThinking = s.startThinking
  stop : s'.endThinking = s.endThinking

omit [DecidableEq τ] in
theorem Frame.trans {s s' s'' : Entry τ} (h : Frame s s') (h' : Frame s' s'') : Frame s s'' :=
  ⟨h'.budget.trans h.budget, h'.prompt.trans h.prompt, fun hb => h'.bonus (h.bonus hb),
    h'.continues.trans h.continues, h'.start.trans h.start, h'.stop.trans h.stop⟩

theorem backToThink_frame (m : Markers τ) (ts : List τ) (s : Entry τ) :
    Frame s (s.backToThink m ts) := by
  unfold backToThink
  simp only
  split_ifs <;> exact ⟨rfl, rfl, by simp, rfl, rfl, rfl⟩

section
variable (m : Markers τ) (s : Entry τ)

omit [DecidableEq τ] in
theorem thinkMode_frame : Frame s (s.thinkMode m) := by
  unfold thinkMode
  simp only
  split_ifs <;> exact ⟨rfl, rfl, id, rfl, rfl, rfl⟩

theorem endMode_frame : Frame s (s.endMode m) := by
  unfold endMode
  simp only
  split_ifs <;> exact ⟨rfl, rfl, id, rfl, rfl, rfl⟩

theorem advance_frame : Frame s (s.advance m) := by
  have hprev : Frame s { s with prevOutputLength := s.outputTokIds.length } :=
    ⟨rfl, rfl, id, rfl, rfl, rfl⟩
  have hback := hprev.trans (backToThink_frame m (s.outputTokIds.drop s.prevOutputLength) _)
  unfold advance
  simp only
  split_ifs
  · exact hback.trans (thinkMode_frame m _)
  · exact hback.trans (endMode_frame m _)

theorem countDown_frame : Frame s (s.countDown m) := by
  unfold countDown
  simp only
  split_ifs
  any_goals exact ⟨rfl, rfl, id, rfl, rfl, rfl⟩
  exact advance_frame m s

end

theorem updateThinkState_eq {m : Markers τ} {s : Entry τ} (hb : s.thinkingTokenBudget ≠ -1)
    (hne : m.thinkEndTokenIds ≠ []) :
    s.updateThinkState m =
      if (s.locate m).startThinking = -1 then s.locate m else (s.locate m).countDown m := by
  rw [updateThinkState, if_neg hb, if_neg hne]

section
variable {m : Markers τ} {s : Entry τ} (hspec : s.specTokenIds = [])
include hspec

theorem countDown_early (hin : s.inEnd = false) (hstart : 0 ≤ s.startThinking)
    (hc : 1 ≤ s.checkCountDown - s.sampledTokensFromPreviousStep m) :
    s.countDown m = { s with
      checkCountDown := s.checkCountDown - s.sampledTokensFromPreviousStep m
      prevOutputLength := s.outputTokIds.length } := by
  unfold countDown
  simp only [hspec, length_nil]
  exact if_pos ⟨hin, by omega, by omega⟩

theorem countDown_late
    (hlate : s.inEnd = true ∨ s.checkCountDown - s.sampledTokensFromPreviousStep m < 1)
    (hlen : s.prevOutputLength < s.outputTokIds.length) : s.countDown m = s.advance m := by
  have hne : s.outputTokIds ≠ [] := ne_nil_of_length_pos (by omega)
  unfold countDown
  simp only [hspec]
  rw [if_neg, if_neg hne, if_neg (by omega)]
  rintro ⟨hin, hc, -⟩
  rcases hlate with h | h
  · rw [hin] at h
    cases h
  · omega

theorem countDown_again (hin : s.inEnd = true)
    (hlen : s.outputTokIds.length ≤ s.prevOutputLength) :
    s.countDown m = { s with forceIndex := [0] } := by
  have hspec' : ¬ 0 < s.specTokenIds.length := by simp [hspec]
  unfold countDown
  rw [if_neg (fun h => by rw [hin] at h; cases h.1)]
  by_cases hne : s.outputTokIds = []
  · rw [if_pos hne, if_pos hin]
  · rw [if_neg hne, if_pos hlen, if_pos hin, if_neg hspec']

omit hspec in
theorem advance_think (hin : s.inEnd = false) :
    s.advance m = thinkMode m { s with prevOutputLength := s.outputTokIds.length } := by
  unfold advance backToThink
  simp [hin]

omit hspec in
theorem advance_end (hin : s.inEnd = true)
    (hnew : s.endCount = 0 →
      ∃ t ∈ m.thinkEndTokenIds[0]?, t ∈ s.outputTokIds.drop s.prevOutputLength) :
    s.advance m = endMode m { s with prevOutputLength := s.outputTokIds.length } := by
  unfold advance backToThink
  by_cases hc : s.endCount = 0
  · obtain ⟨t, ht, hmem⟩ := hnew hc
    simp only [hin, hc, true_and, if_true, Option.mem_def.mp ht, hmem]
    simp
  · simp [hin, hc]

variable {c : Int}

omit hspec [DecidableEq τ] in
theorem thinkMode_closed (hcount : s.countThinking m = (false, c)) :
    (s.thinkMode m).inEnd = s.inEnd := by
  unfold thinkMode
  simp [hcount]

omit [DecidableEq τ] in
theorem thinkMode_spent (hcount : s.countThinking m = (true, c))
    (hc : s.thinkingTokenBudget < c + 1) :
    s.thinkMode m = { s with
      inThink := false
      inEnd := true
      thinkCount := c
      endCount := 0
      checkCountDown := s.thinkingTokenBudget
      forceIndex := [0] } := by
  unfold thinkMode
  simp only [hcount, hspec, length_nil, true_and, Nat.cast_zero, add_zero]
  rw [if_pos hc]
  have hplace : forcePlace (s.thinkingTokenBudget - c) 0 = 0 := by
    unfold forcePlace
    split_ifs with h1 h2
    · omega
    · rfl
    · rfl
  rw [hplace]

omit [DecidableEq τ] in
theorem thinkMode_open (hcount : s.countThinking m = (true, c))
    (hc : c + 1 ≤ s.thinkingTokenBudget) :
    s.thinkMode m = { s with
      inThink := true
      thinkCount := c
      checkCountDown := s.thinkingTokenBudget - c } := by
  unfold thinkMode
  simp only [hcount, hspec, length_nil, true_and, Nat.cast_zero]
  rw [if_neg (by omega), if_true, max_eq_right (by omega)]

theorem endMode_eq :
    s.endMode m = if m.thinkEndTokenIds.length ≤ s.endCount + 1 then
      { s with
        endCount := 0
        forceIndex := [0]
        inEnd := false
        checkCountDown := s.thinkingTokenBudget }
      else { s with endCount := s.endCount + 1, forceIndex := [0] } := by
  unfold endMode
  simp [hspec]

theorem endMode_forceIndex : (s.endMode m).forceIndex = [0] := by
  rw [endMode_eq hspec]
  split_ifs <;> rfl

omit [DecidableEq τ] in
theorem thinkMode_forceIndex (hin : s.inEnd = false) (h : (s.thinkMode m).inEnd = true) :
    (s.thinkMode m).forceIndex = [0] := by
  obtain ⟨inThink, c, hcount⟩ : ∃ b c, s.countThinking m = (b, c) := ⟨_, _, rfl⟩
  cases inThink with
  | false =>
    rw [thinkMode_closed hcount, hin] at h
    cases h
  | true =>
    by_cases hc : s.thinkingTokenBudget < c + 1
    · rw [thinkMode_spent hspec hcount hc]
    · rw [thinkMode_open hspec hcount (by omega)] at h
      exact absurd (hin.symm.trans h) Bool.false_ne_true

theorem advance_forceIndex (h : (s.advance m).inEnd = true) : (s.advance m).forceIndex = [0] := by
  have hback : ∀ ts s', s'.specTokenIds = [] → (backToThink m ts s').specTokenIds = [] := by
    intro ts s' hs'
    unfold backToThink
    simp only
    split_ifs <;> exact hs'
  unfold advance at h ⊢
  simp only at h ⊢
  split_ifs at h ⊢ with hin
  · exact thinkMode_forceIndex (hback _ _ hspec) hin h
  · exact endMode_forceIndex (hback _ _ hspec)

theorem countDown_forceIndex (h : (s.countDown m).inEnd = true) :
    (s.countDown m).forceIndex = [0] := by
  have hspec' : ¬ 0 < s.specTokenIds.length := by simp [hspec]
  unfold countDown at h ⊢
  simp only at h ⊢
  split_ifs at h ⊢ with hearly
  · exact absurd (hearly.1.symm.trans h) Bool.false_ne_true
  all_goals first | rfl | exact absurd h (by assumption) | exact advance_forceIndex hspec h

end
end Entry

end TailBlend.ThinkingBudget
