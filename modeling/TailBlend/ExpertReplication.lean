import Mathlib.Algebra.BigOperators.Pi
import Mathlib.Algebra.Order.BigOperators.Group.Finset
import TailBlend.Lib.Trace

/-! Replication of experts: the greedy choice of `replicate_experts`, for one row of loads. -/
namespace TailBlend.ExpertReplication
open List
variable {numLog : Nat}

structure Replicas (numLog : Nat) where
  phy2log : List Nat
  logcnt : Fin numLog → Nat

/-- The body of the loop; `np.argmax` takes the first of the greatest entries. -/
def replicate (weight : Fin numLog → ℚ) (s : Replicas numLog) (i : Nat) :
    Except PyError (Replicas numLog) :=
  match (finRange numLog).argmax fun e => weight e / s.logcnt e with
  | none => .error (.valueError "attempt to get argmax of an empty sequence")
  | some e => .ok ⟨s.phy2log.set i e, s.logcnt + Pi.single e 1⟩

def replicateExperts (weight : Fin numLog → ℚ) (numPhy : Nat) :
    Except PyError (Replicas numLog) := do
  pyAssert (numLog ≤ numPhy) ""
  Trace.run (replicate weight) ⟨range numPhy, fun _ => 1⟩
    (range' numLog (numPhy - numLog))

/-- The first `i` physical experts are given out, and no replica carries more load than each of the
replicas of another expert did before its last one came. -/
structure Greedy (weight : Fin numLog → ℚ) (numPhy i : Nat) (s : Replicas numLog) : Prop where
  length : s.phy2log.length = numPhy
  count : ∀ e : Fin numLog, (s.phy2log.take i).count e.val = s.logcnt e
  pos : ∀ e, 0 < s.logcnt e
  sum : ∑ e, s.logcnt e = i
  balanced : ∀ e e', 1 < s.logcnt e' → weight e / s.logcnt e ≤ weight e' / (s.logcnt e' - 1 : Nat)

variable {weight : Fin numLog → ℚ} {numPhy i : Nat} {s : Replicas numLog}
  (hweight : ∀ e, 0 ≤ weight e)
include hweight

theorem load_le {m n : Nat} (e : Fin numLog) (hm : 0 < m) (hmn : m ≤ n) :
    weight e / n ≤ weight e / m :=
  div_le_div_of_nonneg_left (hweight e) (Nat.cast_pos.mpr hm) (Nat.cast_le.mpr hmn)

theorem replicate_greedy (hlog : 0 < numLog) (h : Greedy weight numPhy i s) (hi : i < numPhy) :
    ∃ s', replicate weight s i = .ok s' ∧ Greedy weight numPhy (i + 1) s' := by
  unfold replicate
  cases hmax : (finRange numLog).argmax fun e => weight e / s.logcnt e with
  | none =>
    rw [argmax_eq_none, finRange_eq_nil_iff] at hmax
    omega
  | some k =>
    have hgreatest (e : Fin numLog) : weight e / s.logcnt e ≤ weight k / s.logcnt k :=
      le_of_mem_argmax (mem_finRange e) hmax
    have hgrow (e : Fin numLog) : s.logcnt e ≤ (s.logcnt + Pi.single k 1 : Fin numLog → Nat) e := by
      simp
    refine ⟨_, rfl, ?_, fun e => ?_, fun e => (h.pos e).trans_le (hgrow e), ?_, fun e e' he' => ?_⟩
    · simpa using h.length
    · have htake : (s.phy2log.set i k).take (i + 1) = s.phy2log.take i ++ [k.val] := by
        rw [take_add_one, take_set_of_le le_rfl]
        simp [h.length, hi]
      rw [htake, count_append, h.count, count_singleton]
      simp [Pi.single_apply, eq_comm (a := e), Fin.val_inj]
    · simp [Finset.sum_add_distrib, h.sum]
    · refine (load_le hweight e (h.pos e) (hgrow e)).trans ?_
      by_cases hk : e' = k
      · subst hk
        simpa using hgreatest e
      · simpa [hk] using h.balanced e e' (by simpa [hk] using he')

theorem run_greedy (hlog : 0 < numLog) (n : Nat) (h : Greedy weight numPhy i s)
    (hn : i + n ≤ numPhy) :
    ∃ s', Trace.run (replicate weight) s (range' i n) = .ok s' ∧
      Greedy weight numPhy (i + n) s' := by
  induction n generalizing i s with
  | zero => exact ⟨s, rfl, h⟩
  | succ n ih =>
    obtain ⟨mid, hmid, hgreedy⟩ := replicate_greedy hweight hlog h (by omega)
    obtain ⟨s', hs', hgreedy'⟩ := ih hgreedy (by omega)
    refine ⟨s', ?_, by rwa [Nat.add_right_comm] at hgreedy'⟩
    rw [range'_succ, Trace.run, seq_ok_iff]
    exact ⟨mid, hmid, hs'⟩

/-- An expert with fewer replicas than in another division leaves one with more: that one was
preferred to it when it took its last replica. -/
theorem Greedy.exists_load_ge (h : Greedy weight numPhy i s) {c : Fin numLog → Nat}
    (hpos : ∀ e, 0 < c e) (hsum : ∑ e, c e = i) (e : Fin numLog) :
    ∃ e', weight e / s.logcnt e ≤ weight e' / c e' := by
  by_cases hle : c e ≤ s.logcnt e
  · exact ⟨e, load_le hweight e (hpos e) hle⟩
  obtain ⟨e', he'⟩ : ∃ e', c e' < s.logcnt e' := by
    by_contra hnone
    push Not at hnone
    have hlt := Finset.sum_lt_sum (fun e _ => hnone e) ⟨e, Finset.mem_univ e, not_le.mp hle⟩
    rw [h.sum, hsum] at hlt
    exact hlt.false
  have hc := hpos e'
  exact ⟨e', (h.balanced e e' (by omega)).trans (load_le hweight e' hc (by omega))⟩

/-- The counts of `replicate_experts` sum to the number of physical experts, are those of
`phy2log`, and no other division of the physical experts has a smaller greatest load. -/
theorem replicateExperts_minimises (hlog : 0 < numLog) (hphy : numLog ≤ numPhy) :
    ∃ s, replicateExperts weight numPhy = .ok s ∧ s.phy2log.length = numPhy ∧
      ∑ e, s.logcnt e = numPhy ∧ (∀ e : Fin numLog, s.phy2log.count e.val = s.logcnt e) ∧
      (∀ e, 0 < s.logcnt e) ∧
      ∀ c : Fin numLog → Nat, (∀ e, 0 < c e) → ∑ e, c e = numPhy →
        Finset.univ.sup' ⟨⟨0, hlog⟩, Finset.mem_univ _⟩ (fun e => weight e / s.logcnt e) ≤
          Finset.univ.sup' ⟨⟨0, hlog⟩, Finset.mem_univ _⟩ (fun e => weight e / c e) := by
  have hinit : Greedy weight numPhy numLog ⟨range numPhy, fun _ => 1⟩ :=
    { length := length_range
      count := fun e => by
        rw [take_range, Nat.min_eq_left hphy]
        exact count_eq_one_of_mem nodup_range (mem_range.mpr e.isLt)
      pos := fun _ => Nat.one_pos
      sum := by simp
      balanced := fun _ _ h => absurd h (lt_irrefl 1) }
  obtain ⟨s, hs, h⟩ := run_greedy hweight hlog (numPhy - numLog) hinit (by omega)
  rw [Nat.add_sub_cancel' hphy] at h
  refine ⟨s, ?_, h.length, h.sum, fun e => ?_, h.pos, fun c hpos hsum => ?_⟩
  · simp only [replicateExperts, seq_ok_iff]
    exact ⟨(), (pyAssert_eq_ok ..).mpr hphy, hs⟩
  · rw [← h.count, take_of_length_le h.length.le]
  · refine Finset.sup'_le _ _ fun e _ => ?_
    obtain ⟨e', he'⟩ := h.exists_load_ge hweight hpos hsum e
    exact he'.trans (Finset.le_sup' (fun e => weight e / c e) (Finset.mem_univ e'))

omit hweight in
theorem replicateExperts_minimises_two :
    ∃ s, replicateExperts (fun _ : Fin 2 => 3) 5 = .ok s ∧ ∑ e, s.logcnt e = 5 := by
  obtain ⟨s, hs, -, hsum, -⟩ :=
    @replicateExperts_minimises 2 (fun _ => 3) 5 (fun _ => by norm_num) (by decide) (by decide)
  exact ⟨s, hs, hsum⟩

end TailBlend.ExpertReplication
