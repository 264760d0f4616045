import TailBlend.BudgetPhases

/-! The row state follows the phases of the section. -/
namespace TailBlend.ThinkingBudget
open TextSearch Entry List
variable {τ : Type} [DecidableEq τ]

namespace Entry

def observe (m : Markers τ) (o : List τ) (s : Entry τ) : Entry τ :=
  locate m { s with
    outputTokIds := o
    specTokenIds := []
    inSpecMode := false
    forceIndex := [] }

theorem refresh_eq {m : Markers τ} {s : Entry τ} (hb : s.thinkingTokenBudget ≠ -1)
    (hne : m.thinkEndTokenIds ≠ []) (o : List τ) :
    s.refresh m false o [] = if (s.observe m o).startThinking = -1 then s.observe m o
      else (s.observe m o).countDown m := by
  exact updateThinkState_eq hb hne

section
variable {m : Markers τ} {s : Entry τ}

theorem countDown_closed (hin : s.inEnd = false) (hstart : 0 ≤ s.startThinking)
    (hend : 0 ≤ s.absoluteEndPos) (hle : s.startThinking ≤ s.absoluteEndPos) :
    (s.countDown m).inEnd = false := by
  have hcount : countThinking m { s with prevOutputLength := s.outputTokIds.length } =
      (false, 0) := by
    change countThinking m s = (false, 0)
    unfold countThinking
    rw [if_pos ⟨hstart, hend⟩, if_neg (by omega)]
  have hadvance : (s.advance m).inEnd = false := by
    rw [advance_think hin, thinkMode_closed hcount]
    exact hin
  unfold countDown
  simp only
  split_ifs <;> first | exact hin | exact hadvance

theorem countDown_open (hspec : s.specTokenIds = []) (hin : s.inEnd = false)
    (hstart : 0 ≤ s.startThinking) (hlen : s.prevOutputLength < s.outputTokIds.length) {k : Nat}
    (hcount : s.countThinking m = (true, (k : Int)))
    (hc : s.checkCountDown - s.sampledTokensFromPreviousStep m + k ≤ s.thinkingTokenBudget) :
    (s.countDown m).prevOutputLength = s.outputTokIds.length ∧
      if s.thinkingTokenBudget ≤ k then
        (s.countDown m).inEnd = true ∧ (s.countDown m).endCount = 0
      else (s.countDown m).inEnd = false ∧ 1 ≤ (s.countDown m).checkCountDown ∧
        (s.countDown m).checkCountDown + k ≤ s.thinkingTokenBudget ∧
        (s.inThink = true → (s.countDown m).inThink = true) := by
  by_cases hearly : 1 ≤ s.checkCountDown - s.sampledTokensFromPreviousStep m
  · rw [countDown_early hspec hin hstart hearly, if_neg (by omega)]
    exact ⟨rfl, hin, hearly, hc, id⟩
  have hcount' : countThinking m { s with prevOutputLength := s.outputTokIds.length } =
      (true, (k : Int)) := hcount
  rw [countDown_late hspec (.inr (by omega)) hlen, advance_think hin]
  split_ifs with hk
  · rw [thinkMode_spent (by exact hspec) hcount' (by simp only; omega)]
    exact ⟨rfl, rfl, rfl⟩
  · rw [thinkMode_open (by exact hspec) hcount' (by simp only; omega)]
    exact ⟨rfl, hin, by simp only; omega, by simp only; omega, fun _ => rfl⟩

theorem countDown_ending (hspec : s.specTokenIds = []) (hin : s.inEnd = true) {o : List τ} {t : τ}
    (hout : s.outputTokIds = o ++ [t]) (hlen : s.prevOutputLength = o.length)
    (ht : m.thinkEndTokenIds[s.endCount]? = some t) :
    (s.countDown m).prevOutputLength = s.outputTokIds.length ∧
      if s.endCount + 1 < m.thinkEndTokenIds.length then
        (s.countDown m).inEnd = true ∧ (s.countDown m).endCount = s.endCount + 1
      else (s.countDown m).inEnd = false := by
  have hnew : s.endCount = 0 →
      ∃ t ∈ m.thinkEndTokenIds[0]?, t ∈ s.outputTokIds.drop s.prevOutputLength := by
    intro hc
    refine ⟨t, by rw [hc] at ht; exact ht, ?_⟩
    rw [hout, hlen, drop_left]
    exact mem_singleton_self t
  rw [countDown_late hspec (.inl hin) (by simp [hout, hlen]), advance_end hin hnew,
    endMode_eq (by exact hspec)]
  split_ifs with h1 h2 h2
  · simp only at h1
    omega
  · exact ⟨rfl, rfl⟩
  · exact ⟨rfl, hin, rfl⟩
  · simp only at h1
    omega

omit [DecidableEq τ] in
theorem applyForcing_eq (hin : s.inEnd = true) (hbonus : s.bonusTokenForced = false)
    (hne : s.forceIndex ≠ []) {t : τ} (ht : m.thinkEndTokenIds[s.endCount]? = some t) :
    s.applyForcing m false = (s, s.forceIndex.map (fun i => (i, t))) := by
  have hsame : { s with bonusTokenForced := false } = s := by rw [← hbonus]
  unfold applyForcing
  simp only [Bool.false_eq_true, false_and, if_false]
  rw [if_neg (by simp [hin]), hsame, ite_self, if_neg (by simp [hbonus, hne]), ht]

end
end Entry

namespace Tracks
variable {r : BudgetRequest τ} {o : List τ} {φ : Phase} {e : Entry τ}

theorem budget_ne (h : Tracks r o φ e) : e.thinkingTokenBudget ≠ -1 := by
  rw [h.budget]
  omega

theorem start_of_opens (h : Tracks r o φ e) (hopen : r.opens = true) :
    e.startThinking = r.prompt.length - r.promptCount - 1 ∧ 0 ≤ e.startThinking ∧
      e.startThinking < r.prompt.length := by
  have hs := h.start
  rw [if_pos hopen] at hs
  have := (r.promptCount_eq hopen).2
  have := length_pos_iff.mpr r.start_ne_nil
  omega

theorem start_observe (m : Markers τ) (o' : List τ) (hx : e.startThinking ≠ -1) :
    (e.observe m o').startThinking = e.startThinking :=
  if_neg hx

theorem start_nonneg (h : Tracks r o φ e) (hx : e.startThinking ≠ -1) : 0 ≤ e.startThinking := by
  by_cases hopen : r.opens = true
  · exact (h.start_of_opens hopen).2.1
  · have hs := h.start
    rw [if_neg hopen] at hs
    exact hs.nonneg hx

/-- Both ends of the section are where the output has them. -/
abbrev Placed (r : BudgetRequest τ) (o : List τ) (s : Entry τ) : Prop :=
  (if r.opens then s.startThinking = r.prompt.length - r.promptCount - 1
    else Located o r.markers.thinkStartTokenIds s.startThinking) ∧
  Located o r.markers.thinkEndTokenIds s.endThinking

theorem observe_concat (h : Tracks r o φ e) (t : τ) :
    Placed r (o ++ [t]) (e.observe r.markers (o ++ [t])) := by
  refine ⟨?_, h.stop.concat r.end_ne_nil t⟩
  by_cases hopen : r.opens = true
  · have hs := h.start_of_opens hopen
    rw [if_pos hopen, start_observe _ _ (by omega)]
    exact hs.1
  · have hs := h.start
    rw [if_neg hopen] at hs ⊢
    exact hs.concat r.start_ne_nil t

variable {o' : List τ} {t : τ} {k : Nat}

theorem of_countDown {φ' : Phase} (h : Tracks r o φ e)
    (hplaces : Placed r o' (e.observe r.markers o'))
    (hphase : InPhase r o' ((e.observe r.markers o').countDown r.markers) φ') :
    Tracks r o' φ' ((e.observe r.markers o').countDown r.markers) := by
  have hframe := countDown_frame r.markers (e.observe r.markers o')
  refine ⟨hframe.budget.trans h.budget, hframe.prompt.trans h.prompt, hframe.bonus h.bonus,
    hframe.continues.trans h.continues, ?_, ?_, hphase⟩
  · rw [hframe.start]
    exact hplaces.1
  · rw [hframe.stop]
    exact hplaces.2

theorem inPhase_ended (s : Entry τ) (hclean : r.Clean o') (hcont : s.continueThinking = r.opens)
    (hprompt : s.promptTokIds = r.promptTokIds) (hplaces : Placed r o' s) (hin : s.inEnd = false)
    (hstart' : 0 ≤ s.startThinking) (hstop' : s.endThinking ≠ -1) :
    InPhase r o' (s.countDown r.markers) .ended := by
  obtain ⟨hstart, hstop⟩ := hplaces
  have hnonneg := hstop.nonneg hstop'
  have hframe := countDown_frame r.markers s
  suffices hend : 0 ≤ s.absoluteEndPos ∧ s.startThinking ≤ s.absoluteEndPos from
    ⟨countDown_closed hin hstart' hend.1 hend.2, by rwa [hframe.stop], by rw [hframe.start]; omega⟩
  unfold absoluteEndPos
  rw [hcont, hprompt]
  by_cases hopen : r.opens = true
  · rw [if_pos hopen] at hstart
    rw [if_pos ⟨hopen, by omega⟩]
    have : (r.promptTokIds.getD []).length = r.prompt.length := rfl
    omega
  rw [if_neg hopen] at hstart
  rcases hstart with ⟨h, -⟩ | ⟨i, hi, hocc, hfirst⟩
  · omega
  rcases hstop with ⟨h, -⟩ | ⟨j, hj, hocc', -⟩
  · exact absurd h hstop'
  have := hclean.of_closed hopen hocc hfirst hocc'
  omega

theorem ended_concat (h : Tracks r o .ended e) (hclean : r.Clean (o ++ [t])) :
    Tracks r (o ++ [t]) .ended (e.refresh r.markers false (o ++ [t]) []) := by
  obtain ⟨hin, hstop, hstart⟩ := h.phase
  have hplaces := h.observe_concat t
  have hs : (e.observe r.markers (o ++ [t])).startThinking = e.startThinking :=
    start_observe _ _ hstart
  have he : (e.observe r.markers (o ++ [t])).endThinking = e.endThinking := if_neg hstop
  rw [refresh_eq h.budget_ne r.end_ne_nil, if_neg (by rw [hs]; exact hstart)]
  refine h.of_countDown hplaces ?_
  exact inPhase_ended _ hclean h.continues h.prompt hplaces hin
    (by rw [hs]; exact h.start_nonneg hstart) (by rw [he]; exact hstop)

theorem count_open {s : Entry τ} (hclean : r.Clean o') (hout : s.outputTokIds = o')
    (hcont : s.continueThinking = r.opens) (hprompt : s.promptTokIds = r.promptTokIds)
    (hstop : s.endThinking = -1) (hstart : 0 ≤ s.startThinking)
    (hk : if r.opens then s.inThink = true ∧ k = o'.length + r.promptCount ∧
        s.startThinking = r.prompt.length - r.promptCount - 1 ∧
        r.promptCount < r.thinkingTokenBudget
      else (o'.length : Int) = s.startThinking + r.markers.thinkStartTokenIds.length + k) :
    s.countThinking r.markers = (true, (k : Int)) := by
  have hend : s.absoluteEndPos = -1 := by
    unfold absoluteEndPos
    rw [hstop, if_neg (by omega)]
  unfold countThinking
  rw [if_neg (by omega)]
  by_cases hopen : r.opens = true
  · rw [if_pos hopen] at hk
    obtain ⟨hthink, hk, hs, hb⟩ := hk
    have hcl := (hclean.1 _ (hclean.promptSection_eq.trans (if_pos hopen))).1
    rw [if_neg (by simp [hcont, hopen]), if_neg (by omega), if_pos hthink, hprompt, hout]
    have hlen : (r.promptTokIds.getD []).length = r.prompt.length := rfl
    rcases hcl with h1 | h1
    · congr 1
      omega
    · omega
  · rw [if_neg hopen] at hk
    rw [if_pos ⟨hstart, by simpa [hcont] using hopen⟩, hout]
    congr 1
    omega

theorem inPhase_spend (s : Entry τ) (hclean : r.Clean o') (hspec : s.specTokenIds = [])
    (hout : s.outputTokIds = o') (hin : s.inEnd = false)
    (hbudget : s.thinkingTokenBudget = r.thinkingTokenBudget) (hcont : s.continueThinking = r.opens)
    (hprompt : s.promptTokIds = r.promptTokIds) (hstop : s.endThinking = -1)
    (hstart : 0 ≤ s.startThinking) (hlen : s.prevOutputLength < o'.length)
    (hk : if r.opens then s.inThink = true ∧ k = o'.length + r.promptCount ∧
        s.startThinking = r.prompt.length - r.promptCount - 1 ∧
        r.promptCount < r.thinkingTokenBudget
      else (o'.length : Int) = s.startThinking + r.markers.thinkStartTokenIds.length + k)
    (hc : s.checkCountDown - s.sampledTokensFromPreviousStep r.markers + k ≤ r.thinkingTokenBudget)
    : InPhase r o' (s.countDown r.markers) (Phase.spend r.thinkingTokenBudget k) := by
  have hcount := count_open hclean hout hcont hprompt hstop hstart hk
  obtain ⟨hprev, hrest⟩ := countDown_open hspec hin hstart (by rw [hout]; exact hlen) hcount
    (by rw [hbudget]; exact hc)
  have hframe := countDown_frame r.markers s
  have hend := length_pos_iff.mpr r.end_ne_nil
  rw [hout] at hprev
  rw [hbudget] at hrest
  unfold Phase.spend
  by_cases hle : r.thinkingTokenBudget ≤ k
  · rw [if_pos (by omega)] at hrest
    rw [if_pos hle]
    exact ⟨hrest.1, hrest.2, hend, hprev, nil_suffix, by rw [hframe.start]; omega⟩
  rw [if_neg (by omega)] at hrest
  rw [if_neg hle]
  refine ⟨hrest.1, hframe.stop.trans hstop, hprev, hrest.2.1, hrest.2.2.1, ?_⟩
  by_cases hopen : r.opens = true
  · rw [if_pos hopen] at hk ⊢
    exact ⟨hrest.2.2.2 hk.1, hk.2.1⟩
  · rw [if_neg hopen] at hk ⊢
    rw [hframe.start]
    exact ⟨by omega, hk⟩

theorem waiting_concat (h : Tracks r o .waiting e) (hclean : r.Clean (o ++ [t])) :
    Tracks r (o ++ [t]) (Phase.next r (o ++ [t]) .waiting)
      (e.refresh r.markers false (o ++ [t]) []) := by
  obtain ⟨hstart, hin, hprev, hcheck⟩ := h.phase
  have hclosed : ¬ r.opens = true := by
    intro hopen
    have := h.start_of_opens hopen
    omega
  have hplaces := h.observe_concat t
  have hs := h.start
  rw [if_neg hclosed, hstart] at hs
  have hs' := hplaces.1
  rw [if_neg hclosed] at hs'
  rw [refresh_eq h.budget_ne r.end_ne_nil]
  rcases located_concat_eq r.start_ne_nil hs hs' with ⟨hx, hsuf⟩ | ⟨hsuf, hx⟩
  · rw [if_pos hx, Phase.next, if_neg hsuf]
    exact ⟨h.budget, h.prompt, h.bonus, h.continues, hplaces.1, hplaces.2, hx, hin, hprev, hcheck⟩
  have hnonneg : 0 ≤ (e.observe r.markers (o ++ [t])).startThinking := by
    have := hsuf.length_le
    simp only [length_append, length_singleton] at this
    omega
  rw [if_neg (by omega), Phase.next, if_pos hsuf]
  refine h.of_countDown hplaces ?_
  have hlen : (o ++ [t]).length = o.length + 1 := by simp
  have hstop : (e.observe r.markers (o ++ [t])).endThinking = -1 := by
    rcases hplaces.2 with h1 | ⟨j, hj, hocc, -⟩
    · exact h1.1
    rcases hs' with h1 | ⟨i, hi, hocc', hfirst⟩
    · omega
    have := hclean.of_closed hclosed hocc' hfirst hocc
    have := hocc.end_le r.end_ne_nil
    have := length_pos_iff.mpr r.end_ne_nil
    omega
  have hprev' : (e.observe r.markers (o ++ [t])).prevOutputLength = 0 := hprev
  have hsampled : (e.observe r.markers (o ++ [t])).sampledTokensFromPreviousStep r.markers =
      (o ++ [t]).length - r.markers.thinkStartTokenIds.length := by
    unfold sampledTokensFromPreviousStep
    have hcont : (e.observe r.markers (o ++ [t])).continueThinking = false :=
      h.continues.trans (Bool.not_eq_true _ ▸ hclosed)
    rw [hcont, hprev']
    rfl
  refine inPhase_spend _ hclean rfl rfl hin h.budget h.continues h.prompt hstop hnonneg
    (by rw [hprev']; omega) ?_ ?_
  · rw [if_neg hclosed]
    omega
  have hcheck' : (e.observe r.markers (o ++ [t])).checkCountDown = r.thinkingTokenBudget := hcheck
  omega

omit [DecidableEq τ] in
theorem sampled_eq {s : Entry τ} {n : Nat} (hout : s.outputTokIds = o')
    (hprev : s.prevOutputLength = n) (hn : s.continueThinking = false → n ≠ 0) :
    s.sampledTokensFromPreviousStep r.markers = o'.length - n := by
  unfold sampledTokensFromPreviousStep
  rw [hprev, hout]
  by_cases hc : s.continueThinking = true
  · exact if_pos hc
  · rw [if_neg hc, if_neg (hn (Bool.not_eq_true _ ▸ hc))]

section
variable (h : Tracks r o (.thinking k) e)
include h

theorem output_pos (hopen : ¬ r.opens = true) :
    e.startThinking ≠ -1 ∧ o.length ≠ 0 := by
  have hrest := h.phase.2.2.2.2.2
  rw [if_neg hopen] at hrest
  have := h.start_nonneg hrest.1
  have := length_pos_iff.mpr r.start_ne_nil
  exact ⟨hrest.1, by omega⟩

theorem start_of_thinking : e.startThinking ≠ -1 := by
  by_cases hopen : r.opens = true
  · have := h.start_of_opens hopen
    omega
  · exact (h.output_pos hopen).1

theorem thinking_concat (hclean : r.Clean (o ++ [t])) :
    Tracks r (o ++ [t]) (Phase.next r (o ++ [t]) (.thinking k))
      (e.refresh r.markers false (o ++ [t]) []) := by
  obtain ⟨hin, hstop, hprev, hcheck, hbudget, hrest⟩ := h.phase
  have hplaces := h.observe_concat t
  have hstart := h.start_of_thinking
  have hs : (e.observe r.markers (o ++ [t])).startThinking = e.startThinking :=
    start_observe _ _ hstart
  have hlen : (o ++ [t]).length = o.length + 1 := by simp
  rw [refresh_eq h.budget_ne r.end_ne_nil, if_neg (by rw [hs]; exact hstart)]
  refine h.of_countDown hplaces ?_
  rcases located_concat_eq r.end_ne_nil (hstop ▸ h.stop) hplaces.2 with ⟨hx, hsuf⟩ | ⟨hsuf, -⟩
  · rw [Phase.next, if_neg hsuf]
    have hsampled : (e.observe r.markers (o ++ [t])).sampledTokensFromPreviousStep r.markers =
        (o ++ [t]).length - o.length :=
      sampled_eq rfl hprev fun hc => (h.output_pos (by simp [← h.continues, show
        e.continueThinking = false from hc])).2
    have hcheck' : (e.observe r.markers (o ++ [t])).checkCountDown = e.checkCountDown := rfl
    refine inPhase_spend (e.observe r.markers (o ++ [t])) hclean rfl rfl hin h.budget h.continues
      h.prompt hx (by rw [hs]; exact h.start_nonneg hstart)
      (by rw [show (e.observe r.markers (o ++ [t])).prevOutputLength = o.length from hprev]; omega)
      ?_ (by rw [hsampled]; push_cast; omega)
    by_cases hopen : r.opens = true
    · rw [if_pos hopen] at hrest ⊢
      rw [hs]
      exact ⟨hrest.1, by omega, (h.start_of_opens hopen).1, by omega⟩
    rw [if_neg hopen] at hrest ⊢
    omega
  · have hend := Located.of_suffix r.end_ne_nil hplaces.2 hsuf
    rw [Phase.next, if_pos hsuf]
    exact inPhase_ended _ hclean h.continues h.prompt hplaces hin
      (by rw [hs]; exact h.start_nonneg hstart) hend

end

theorem ending_concat {n : Nat} (h : Tracks r o (.ending n) e)
    (ht : r.markers.thinkEndTokenIds[n]? = some t) :
    Tracks r (o ++ [t]) (Phase.next r (o ++ [t]) (.ending n))
      (e.refresh r.markers false (o ++ [t]) []) := by
  obtain ⟨hin, hcount, hn, hprev, hsuf, hstart⟩ := h.phase
  have hplaces := h.observe_concat t
  have hs : (e.observe r.markers (o ++ [t])).startThinking = e.startThinking :=
    start_observe _ _ hstart
  have hsuf' : r.markers.thinkEndTokenIds.take (n + 1) <:+ o ++ [t] := by
    obtain ⟨front, hfront⟩ := hsuf
    rw [take_add_one, ht, ← hfront, append_assoc]
    exact suffix_append _ _
  rw [refresh_eq h.budget_ne r.end_ne_nil, if_neg (by rw [hs]; exact hstart)]
  refine h.of_countDown hplaces ?_
  have hframe := countDown_frame r.markers (e.observe r.markers (o ++ [t]))
  have hcount' : (e.observe r.markers (o ++ [t])).endCount = n := hcount
  obtain ⟨hprev', hrest⟩ := countDown_ending (s := e.observe r.markers (o ++ [t])) rfl hin rfl
    hprev (by rw [hcount']; exact ht)
  rw [hcount'] at hrest
  rw [Phase.next]
  by_cases hlt : n + 1 < r.markers.thinkEndTokenIds.length
  · rw [if_pos hlt] at hrest ⊢
    refine ⟨hrest.1, hrest.2, hlt, hprev', hsuf', ?_⟩
    rw [hframe.start, hs]
    exact hstart
  rw [if_neg hlt] at hrest ⊢
  rw [take_of_length_le (by omega)] at hsuf'
  refine ⟨hrest, ?_, ?_⟩
  · rw [hframe.stop]
    exact Located.of_suffix r.end_ne_nil hplaces.2 hsuf'
  · rw [hframe.start, hs]
    exact hstart

theorem concat (h : Tracks r o φ e) (hclean : r.Clean (o ++ [t]))
    (hforced : ∀ u ∈ φ.forced r.markers, t = u) :
    Tracks r (o ++ [t]) (φ.next r (o ++ [t])) (e.refresh r.markers false (o ++ [t]) []) := by
  cases φ with
  | waiting => exact h.waiting_concat hclean
  | thinking k => exact h.thinking_concat hclean
  | ending n =>
    have hn := h.phase.2.2.1
    have hget : r.markers.thinkEndTokenIds[n]? = some r.markers.thinkEndTokenIds[n] :=
      getElem?_eq_getElem hn
    refine h.ending_concat ?_
    rw [hforced _ hget]
    exact hget
  | ended => exact h.ended_concat hclean

theorem again (h : Tracks r o φ e) (hclean : r.Clean o) :
    Tracks r o φ (e.refresh r.markers false o []) := by
  have he : (e.observe r.markers o).endThinking = e.endThinking := h.stop.relocate r.end_ne_nil
  have hs : (e.observe r.markers o).startThinking = e.startThinking := by
    by_cases hopen : r.opens = true
    · have := h.start_of_opens hopen
      exact start_observe _ _ (by omega)
    · have hs := h.start
      rw [if_neg hopen] at hs
      exact hs.relocate r.start_ne_nil
  have hplaces : Placed r o (e.observe r.markers o) := by
    rw [Placed, hs, he]
    exact ⟨h.start, h.stop⟩
  rw [refresh_eq h.budget_ne r.end_ne_nil]
  by_cases hstart : e.startThinking = -1
  · rw [if_pos (by rw [hs]; exact hstart)]
    refine ⟨h.budget, h.prompt, h.bonus, h.continues, hplaces.1, hplaces.2, ?_⟩
    cases φ with
    | waiting => exact ⟨by rw [hs]; exact hstart, h.phase.2⟩
    | thinking k => exact absurd hstart h.start_of_thinking
    | ending n => exact absurd hstart h.phase.2.2.2.2.2
    | ended => exact absurd hstart h.phase.2.2
  rw [if_neg (by rw [hs]; exact hstart)]
  refine h.of_countDown hplaces ?_
  have hnonneg : 0 ≤ (e.observe r.markers o).startThinking := by
    rw [hs]
    exact h.start_nonneg hstart
  cases φ with
  | waiting => exact absurd h.phase.1 hstart
  | thinking k =>
    obtain ⟨hin, hstop, hprev, hcheck, hbudget, hrest⟩ := h.phase
    have hsampled : (e.observe r.markers o).sampledTokensFromPreviousStep r.markers =
        o.length - o.length :=
      sampled_eq rfl hprev fun hc => (h.output_pos (by simp [← h.continues, show
        e.continueThinking = false from hc])).2
    have hcheck' : (e.observe r.markers o).checkCountDown = e.checkCountDown := rfl
    rw [countDown_early (s := e.observe r.markers o) rfl hin hnonneg
      (by rw [hsampled]; omega)]
    refine ⟨hin, he.trans hstop, rfl, by simp only [hsampled]; omega,
      by simp only [hsampled]; omega, ?_⟩
    simp only [hs]
    exact hrest
  | ending n =>
    obtain ⟨hin, hcount, hn, hprev, hsuf, -⟩ := h.phase
    rw [countDown_again (s := e.observe r.markers o) rfl hin hprev.ge]
    exact ⟨hin, hcount, hn, hprev, hsuf, by simpa [hs] using hstart⟩
  | ended =>
    obtain ⟨hin, hstop, -⟩ := h.phase
    exact inPhase_ended _ hclean h.continues h.prompt hplaces hin hnonneg (by rwa [he])

theorem applyForcing_refresh {φ' : Phase} (h : Tracks r o φ e)
    (h' : Tracks r o' φ' (e.refresh r.markers false o' [])) :
    (e.refresh r.markers false o' []).applyForcing r.markers false =
      (e.refresh r.markers false o' [], ((φ'.forced r.markers).map (fun t => (0, t))).toList) := by
  cases φ' with
  | waiting =>
    rw [applyForcing, if_pos h'.phase.2.1]
    rfl
  | thinking k =>
    rw [applyForcing, if_pos h'.phase.1]
    rfl
  | ended =>
    rw [applyForcing, if_pos h'.phase.1]
    rfl
  | ending n =>
    obtain ⟨hin, hcount, hn, -, -, hstart⟩ := h'.phase
    have hforce : (e.refresh r.markers false o' []).forceIndex = [0] := by
      rw [refresh_eq h.budget_ne r.end_ne_nil] at hin hstart ⊢
      by_cases hs : (e.observe r.markers o').startThinking = -1
      · rw [if_pos hs] at hstart
        exact absurd hs hstart
      · rw [if_neg hs] at hin ⊢
        exact countDown_forceIndex rfl hin
    have hget : r.markers.thinkEndTokenIds[n]? = some r.markers.thinkEndTokenIds[n] :=
      getElem?_eq_getElem hn
    rw [applyForcing_eq hin h'.bonus (by simp [hforce]) (by rw [hcount]; exact hget), hforce,
      Phase.forced, hget]
    rfl

end Tracks
end TailBlend.ThinkingBudget
