import TailBlend.Lib.Py
import Mathlib.Algebra.Order.BigOperators.Group.List

/-! Running a fallible method on every object of a list, with a state threaded through,
and the invariant rules for such loops. -/
namespace TailBlend
open List
universe u
variable {ε : Type u} {σ μ ρ : Type}

/-- `for i, m in enumerate(ms, start=i): x = f(i, m)`, collecting the results. -/
def threadM (f : Nat → σ → μ → Except ε (σ × μ × ρ)) :
    Nat → σ → List μ → Except ε (σ × List μ × List ρ)
  | _, s, [] => .ok (s, [], [])
  | i, s, m :: ms =>
    match f i s m with
    | .error e => .error e
    | .ok (s, m, x) =>
      match threadM f (i + 1) s ms with
      | .error e => .error e
      | .ok (s, ms, xs) => .ok (s, m :: ms, x :: xs)

variable {f : Nat → σ → μ → Except ε (σ × μ × ρ)} {i : Nat} {s s' : σ} {ms : List μ} {τ υ : Type}
  {l : List τ}

theorem threadM_cons_ok {m : μ} {res : σ × List μ × List ρ} :
    threadM f i s (m :: ms) = .ok res ↔
      ∃ s1 m' x s2 ms' xs, f i s m = .ok (s1, m', x) ∧
        threadM f (i + 1) s1 ms = .ok (s2, ms', xs) ∧ res = (s2, m' :: ms', x :: xs) := by
  rw [threadM]
  cases h1 : f i s m with
  | error e => simp
  | ok r =>
    obtain ⟨s1, m', x⟩ := r
    simp only
    cases h2 : threadM f (i + 1) s1 ms with
    | error e =>
      simp only [reduceCtorEq, false_iff, not_exists, not_and]
      rintro _ _ _ s2 ms' xs ⟨rfl, rfl, rfl⟩ h
      rw [h2] at h
      cases h
    | ok r =>
      obtain ⟨s2, ms', xs⟩ := r
      constructor
      · intro h
        cases h
        exact ⟨s1, m', x, s2, ms', xs, rfl, h2, rfl⟩
      rintro ⟨_, _, _, _, _, _, h, h', rfl⟩
      cases h
      rw [h2] at h'
      cases h'
      rfl

/-- An invariant kept by every step holds at the end. `I i s done rest` speaks about the
objects already visited and those still to come. -/
theorem threadM_induct (I : Nat → σ → List μ → List μ → Prop)
    (hstep : ∀ i s done m rest s' m' x, I i s done (m :: rest) → f i s m = .ok (s', m', x) →
      I (i + 1) s' (done ++ [m']) rest) (done : List μ) {ms' : List μ} {xs : List ρ}
    (hI : I i s done ms) (h : threadM f i s ms = .ok (s', ms', xs)) :
    I (i + ms.length) s' (done ++ ms') [] := by
  induction ms generalizing i s done ms' xs with
  | nil =>
    cases h
    simpa using hI
  | cons m ms ih =>
    obtain ⟨s1, m', x, s2, ms'', xs', h1, h2, heq⟩ := threadM_cons_ok.mp h
    cases heq
    have := ih (done ++ [m']) (hstep i s done m ms s1 m' x hI h1) h2
    simpa [Nat.add_assoc, Nat.add_comm 1] using this

theorem threadM_total (I : Nat → σ → List μ → List μ → Prop)
    (hstep : ∀ i s done m rest, I i s done (m :: rest) →
      ∃ s' m' x, f i s m = .ok (s', m', x) ∧ I (i + 1) s' (done ++ [m']) rest) (done : List μ)
    (hI : I i s done ms) :
    ∃ s' ms' xs, threadM f i s ms = .ok (s', ms', xs) ∧ I (i + ms.length) s' (done ++ ms') [] := by
  induction ms generalizing i s done with
  | nil => exact ⟨s, [], [], rfl, by simpa using hI⟩
  | cons m ms ih =>
    obtain ⟨s1, m', x, h1, hI1⟩ := hstep i s done m ms hI
    obtain ⟨s2, ms', xs, h2, hI2⟩ := ih (done ++ [m']) hI1
    refine ⟨s2, m' :: ms', x :: xs, threadM_cons_ok.mpr
      ⟨s1, m', x, s2, ms', xs, h1, h2, rfl⟩, ?_⟩
    simpa [Nat.add_assoc, Nat.add_comm 1] using hI2

theorem threadM_length {ms' : List μ} {xs : List ρ} (h : threadM f i s ms = .ok (s', ms', xs)) :
    ms'.length = ms.length := by
  induction ms generalizing i s ms' xs with
  | nil =>
    cases h
    rfl
  | cons m ms ih =>
    obtain ⟨s1, m', x, s2, ms'', xs', h1, h2, heq⟩ := threadM_cons_ok.mp h
    cases heq
    simp [ih h2]

/-- A loop whose steps draw on a budget: a step returns when its cost is left, and uses up no
more than that. `J i s ms` is the invariant after `i` steps, `R i m m'` relates an object to
what its step made of it. -/
theorem threadM_budget (J : Nat → σ → List μ → Prop) (cap : σ → Int) (cost : Nat → μ → Int)
    (R : Nat → μ → μ → Prop)
    (hstep : ∀ s done m rest, J done.length s (done ++ m :: rest) → ms[done.length]? = some m →
      cost done.length m ≤ cap s → ∃ s' m' x, f done.length s m = .ok (s', m', x) ∧
        J (done.length + 1) s' (done ++ m' :: rest) ∧ R done.length m m' ∧
        cap s - cost done.length m ≤ cap s') (hpos : ∀ (i : Nat) m, ms[i]? = some m → 0 ≤ cost i m)
    (hJ : J 0 s ms) (hsum : (ms.zipIdx.map (fun e => cost e.2 e.1)).sum ≤ cap s) :
    ∃ s' ms' xs, threadM f 0 s ms = .ok (s', ms', xs) ∧ J ms.length s' ms' ∧
      (∀ (i : Nat) m, ms[i]? = some m → ∃ m', ms'[i]? = some m' ∧ R i m m') ∧
      cap s - (ms.zipIdx.map (fun e => cost e.2 e.1)).sum ≤ cap s' := by
  let left : Nat → Int := fun i => ((ms.zipIdx.drop i).map (fun e => cost e.2 e.1)).sum
  have hleft (i : Nat) (m : μ) (hm : ms[i]? = some m) : left i = cost i m + left (i + 1) := by
    have hz : ms.zipIdx[i]? = some (m, i) := by
      rw [getElem?_zipIdx, hm]
      simp
    obtain ⟨hlt, hget⟩ := List.getElem?_eq_some_iff.mp hz
    simp only [left]
    rw [drop_eq_getElem_cons hlt, hget]
    simp
  have hnonneg (i : Nat) : 0 ≤ left i := by
    refine sum_nonneg ?_
    intro x hx
    obtain ⟨⟨m, j⟩, he, rfl⟩ := mem_map.mp hx
    exact hpos j m (mem_zipIdx_iff_getElem?.mp (mem_of_mem_drop he))
  let I : Nat → σ → List μ → List μ → Prop := fun i s' done rest =>
    done.length = i ∧ rest = ms.drop i ∧ J i s' (done ++ rest) ∧ left i ≤ cap s' ∧
      cap s - (left 0 - left i) ≤ cap s' ∧
      ∀ j, j < i → ∃ m m', ms[j]? = some m ∧ done[j]? = some m' ∧ R j m m'
  obtain ⟨s', ms', xs, hrun, -, -, hJ', -, hcap, hR⟩ := threadM_total I (by
    rintro i s1 done m rest ⟨rfl, hrest, hJ1, hle, hcap, hR⟩
    have hm : ms[done.length]? = some m := by
      rw [← head?_drop, ← hrest]
      rfl
    have hl := hleft _ m hm
    have hn := hnonneg (done.length + 1)
    obtain ⟨s2, m', x, hf, hJ2, hRm, hcap2⟩ := hstep s1 done m rest hJ1 hm (by omega)
    refine ⟨s2, m', x, hf, by simp, ?_, by simpa using hJ2, by omega, by omega, ?_⟩
    · rw [← tail_drop, ← hrest]
      rfl
    · intro j hj
      by_cases hlt : j < done.length
      · obtain ⟨a, a', ha, ha', hRa⟩ := hR j hlt
        exact ⟨a, a', ha, by rw [getElem?_append_left hlt, ha'], hRa⟩
      · obtain rfl : j = done.length := by omega
        exact ⟨m, m', hm, by simp, hRm⟩) []
    (show I 0 s [] ms from ⟨rfl, rfl, hJ, by simpa [left] using hsum, by omega, by simp⟩)
  refine ⟨s', ms', xs, hrun, by simpa using hJ', ?_, ?_⟩
  · intro i m hm
    have hlt := (List.getElem?_eq_some_iff.mp hm).1
    obtain ⟨a, a', ha, ha', hRa⟩ := hR i (by omega)
    rw [hm] at ha
    cases ha
    exact ⟨a', ha', hRa⟩
  have h0 : left (0 + ms.length) = 0 := by
    simp only [left]
    rw [drop_eq_nil_of_le (by simp)]
    rfl
  rw [h0] at hcap
  simpa [left] using hcap

/-- Calls that all return, each with a result related to its argument. -/
theorem mapM_forall₂ {f : τ → Except ε υ} {R : τ → υ → Prop}
    (h : ∀ x ∈ l, ∃ v, f x = .ok v ∧ R x v) : ∃ vs, l.mapM f = .ok vs ∧ Forall₂ R l vs := by
  induction l with
  | nil => exact ⟨[], rfl, .nil⟩
  | cons x xs ih =>
    obtain ⟨v, hv, hR⟩ := h x (by simp)
    obtain ⟨vs, hvs, hRs⟩ := ih (fun y hy => h y (by simp [hy]))
    refine ⟨v :: vs, ?_, .cons hR hRs⟩
    rw [mapM_cons, hv, hvs]
    rfl

theorem mapM_forall {f : τ → Except ε υ} {P : υ → Prop} (h : ∀ x ∈ l, ∃ v, f x = .ok v ∧ P v) :
    ∃ vs, l.mapM f = .ok vs ∧ ∀ v ∈ vs, P v := by
  obtain ⟨vs, hvs, hR⟩ := mapM_forall₂ h
  refine ⟨vs, hvs, ?_⟩
  clear hvs h
  induction hR with
  | nil => simp
  | cons hP _ ih => exact forall_mem_cons.mpr ⟨hP, ih⟩

theorem mapM_eq_map {f : τ → Except ε υ} (g : τ → υ) (h : ∀ x ∈ l, f x = .ok (g x)) :
    l.mapM f = .ok (l.map g) := by
  obtain ⟨vs, hvs, hRs⟩ := mapM_forall₂ (R := fun x v => g x = v) fun x hx => ⟨g x, h x hx, rfl⟩
  have hmap : Forall₂ Eq (l.map g) vs := forall₂_map_left_iff.mpr hRs
  rw [forall₂_eq_eq_eq] at hmap
  rw [hvs, hmap]

/-- Calls that all return at least the given numbers. -/
theorem mapM_sum_le {f : τ → Except ε Int} (g : τ → Int) (h : ∀ x ∈ l, ∃ v, f x = .ok v ∧ g x ≤ v) :
    ∃ vs, l.mapM f = .ok vs ∧ (l.map g).sum ≤ vs.sum := by
  obtain ⟨vs, hvs, hle⟩ := mapM_forall₂ h
  exact ⟨vs, hvs, (forall₂_map_left_iff.mpr hle).sum_le_sum⟩

theorem foldlM_induct {f : σ → τ → Except ε σ} (I : σ → Prop)
    (hstep : ∀ x ∈ l, ∀ s s', I s → f s x = .ok s' → I s') (hI : I s) (h : l.foldlM f s = .ok s') :
    I s' := by
  induction l generalizing s with
  | nil =>
    cases h
    exact hI
  | cons x xs ih =>
    rw [foldlM_cons, seq_ok_iff] at h
    obtain ⟨s1, h1, h2⟩ := h
    exact ih (fun y hy => hstep y (by simp [hy])) (hstep x (by simp) s s1 hI h1) h2

end TailBlend
