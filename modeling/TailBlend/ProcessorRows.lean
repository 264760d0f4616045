import TailBlend.LogitsProcessors
import Mathlib.Algebra.BigOperators.Group.Finset.Piecewise
import Mathlib.Algebra.Order.BigOperators.Group.Finset

/-! The states of the logits processors are those of the requests at the rows. -/
namespace TailBlend.Batch
open Rows Function List
variable {ι ε γ : Type}

/-! Dicts -/

/-- The requests with the property `P`, at their rows. -/
def held {α : Type} (P : α → Bool) (occ : Nat → Option α) : Nat → Option α :=
  fun i => (occ i).filter P

theorem held_update {α : Type} (P : α → Bool) (occ : Nat → Option α) (i : Nat) (v : Option α) :
    held P (update occ i v) = update (held P occ) i (v.filter P) := by
  funext j
  by_cases hj : j = i
  · rw [hj, held, update_self, update_self]
  · rw [held, update_of_ne hj, update_of_ne hj, held]

theorem replayRemoved_added {α : Type} (occ : Nat → Option α) {removed : List Nat}
    {added : List (Nat × α)} (h : ∀ e ∈ added, e.1 ∉ removed) :
    replayRemoved (replayAdded occ added) removed =
      replayAdded (replayRemoved occ removed) added := by
  induction added generalizing occ with
  | nil => rfl
  | cons e added ih =>
    have hnot := h e (mem_cons_self ..)
    have hstep : replayRemoved (update occ e.1 (some e.2)) removed =
        update (replayRemoved occ removed) e.1 (some e.2) := by
      funext i
      by_cases hi : i = e.1
      · rw [hi, replayRemoved, if_neg hnot, update_self, update_self]
      · rw [replayRemoved, update_of_ne hi, update_of_ne hi, replayRemoved]
    have := ih (update occ e.1 (some e.2)) fun e' he' => h e' (mem_cons_of_mem _ he')
    rw [hstep] at this
    exact this

namespace States

theorem pop_all (entries : States ι ε γ) (removed : List Nat) :
    removed.foldl pop entries = replayRemoved entries removed := by
  induction removed generalizing entries with
  | nil =>
    funext i
    simp [replayRemoved]
  | cons j removed ih =>
    rw [foldl_cons, ih]
    funext i
    unfold replayRemoved pop
    by_cases hij : i = j
    · simp [hij]
    · simp [hij]

variable {entries occ occ' : States ι ε γ} {m : Nat × Nat × MoveDirectionality}
  {moved : List (Nat × Nat × MoveDirectionality)} {α : Type} {n : Nat}
  {u : Option (BatchUpdate ι ε γ)}

theorem put_of_none {i : Nat} (h : entries i = none) (v : Option (Request ι ε γ)) :
    (if v.isSome then update entries i v else entries) = update entries i v := by
  cases v with
  | none => rw [← h, update_eq_self, ite_self]
  | some r => rfl

theorem moveEntry_eq (entries : States ι ε γ) (hm : m.2.2 = .unidirectional → m.1 ≠ m.2.1) :
    moveEntry entries m = replayMove none entries m := by
  obtain ⟨a, b, d⟩ := m
  have hb : ((entries.pop a).pop b) b = none := update_self ..
  cases d with
  | unidirectional =>
    have hab : a ≠ b := hm rfl
    simp only [moveEntry, put_of_none hb, replayMove]
    funext i
    by_cases hia : i = a
    · simp [hia, hab, pop]
    · by_cases hib : i = b
      · simp [hib, Ne.symm hab]
      · simp [hia, hib, pop, copyRow]
  | swap =>
    simp only [moveEntry, put_of_none hb, and_true, replayMove]
    by_cases hab : a = b
    · subst hab
      simp only [pop, update_self, update_idem, update_eq_self]
      exact (swapRows_eq_self rfl).symm
    have ha : update ((entries.pop a).pop b) b (entries a) a = none := by
      simp [pop, hab]
    have hpop : (entries.pop a) b = entries b := update_of_ne (Ne.symm hab) ..
    rw [put_of_none ha, hpop, swapRows_eq_update]
    funext i
    by_cases hia : i = a
    · simp [hia]
    · by_cases hib : i = b
      · simp [hib, Ne.symm hab]
      · simp [hia, hib, pop]

theorem move_all (h : ∀ m ∈ moved, m.2.2 = .unidirectional → m.1 ≠ m.2.1) :
    moved.foldl moveEntry entries = replayMoves none entries moved := by
  induction moved generalizing entries with
  | nil => rfl
  | cons m moved ih =>
    rw [foldl_cons, moveEntry_eq entries (h m (mem_cons_self ..)),
      ih fun m' hm' => h m' (mem_cons_of_mem _ hm')]
    rfl

theorem add_all (P : Request ι ε γ → Bool) (occ : States ι ε γ)
    (added : List (Nat × Request ι ε γ)) :
    added.foldl (addEntry P) (held P occ) = held P (replayAdded occ added) := by
  induction added generalizing occ with
  | nil => rfl
  | cons e added ih =>
    have hstep : addEntry P (held P occ) e = held P (update occ e.1 (some e.2)) := by
      rw [held_update, addEntry]
      by_cases he : P e.2 = true
      · rw [if_pos he, Option.filter_some, if_pos he]
      · rw [if_neg he, Option.filter_some, if_neg he]
    rw [foldl_cons, hstep]
    exact ih _

theorem held_replayRemoved (P : α → Bool) (occ : Nat → Option α) (removed : List Nat) :
    replayRemoved (held P occ) removed = held P (replayRemoved occ removed) := by
  funext i
  simp only [replayRemoved, held]
  split_ifs <;> rfl

theorem held_replayMoves (P : α → Bool) (occ : Nat → Option α)
    (moved : List (Nat × Nat × MoveDirectionality)) :
    replayMoves none (held P occ) moved = held P (replayMoves none occ moved) := by
  funext i
  exact (replayMoves_map (fun o => o.filter P) none occ moved i).symm

theorem processDictUpdates_held (P : Request ι ε γ → Bool) (h : InputBatch.Replays n u occ occ') :
    processDictUpdates P (held P occ) u = held P occ' := by
  cases u with
  | none => rw [show occ' = occ from h, processDictUpdates]
  | some u =>
    obtain ⟨hform, hrows⟩ := h
    simp only [processDictUpdates]
    rw [add_all, pop_all, held_replayRemoved, replayRemoved_added occ hform.disjoint,
      move_all hform.proper, held_replayMoves, hrows, replay]

theorem processDictUpdates_filter (new Q : Request ι ε γ → Bool) (entries : States ι ε γ)
    (h : InputBatch.Replays n u occ occ') :
    held Q (processDictUpdates new entries u) =
      processDictUpdates (fun r => new r && Q r) (held Q entries) u := by
  cases u with
  | none => rfl
  | some u =>
    have hadd (added : List (Nat × Request ι ε γ)) (entries : States ι ε γ) :
        held Q (added.foldl (addEntry new) entries) =
          added.foldl (addEntry fun r => new r && Q r) (held Q entries) := by
      induction added generalizing entries with
      | nil => rfl
      | cons e added ih =>
        have hstep : held Q (addEntry new entries e) =
            addEntry (fun r => new r && Q r) (held Q entries) e := by
          unfold addEntry
          by_cases hnew : new e.2 = true
          · rw [if_pos hnew, held_update, Option.filter_some]
            by_cases hq : Q e.2 = true
            · rw [if_pos hq, if_pos (by simp [hnew, hq])]
            · rw [if_neg hq, if_neg (by simp [hq])]
          · rw [if_neg hnew, held_update, if_neg (by simp [hnew])]
            rfl
        rw [foldl_cons, ih, hstep, foldl_cons]
    simp only [processDictUpdates]
    rw [move_all h.1.proper, move_all h.1.proper, pop_all, pop_all, ← held_replayMoves,
      ← held_replayRemoved, hadd]

/-! Budgets -/

/-- A move after which the holder has the state of each request at its row: both or none of the
requests that are exchanged have a budget, and a request without a budget moves to a row whose
former request had none. -/
def MoveSafe (P : Request ι ε γ → Bool) (occ : States ι ε γ) :
    Nat × Nat × MoveDirectionality → Prop
  | (a, b, .swap) => (occ a).any P = (occ b).any P
  | (a, b, .unidirectional) => (occ b).any P = true → (occ a).any P = true

def MovesSafe (P : Request ι ε γ → Bool) : States ι ε γ → List (Nat × Nat × MoveDirectionality) →
    Prop
  | _, [] => True
  | occ, m :: moved => MoveSafe P occ m ∧ MovesSafe P (replayMove none occ m) moved

instance (P : Request ι ε γ → Bool) (occ : States ι ε γ) :
    ∀ m, Decidable (MoveSafe P occ m)
  | (a, b, .swap) => inferInstanceAs (Decidable ((occ a).any P = (occ b).any P))
  | (a, b, .unidirectional) =>
    inferInstanceAs (Decidable ((occ b).any P = true → (occ a).any P = true))

instance decidableMovesSafe (P : Request ι ε γ → Bool) :
    ∀ occ moved, Decidable (MovesSafe P occ moved)
  | _, [] => isTrue trivial
  | occ, m :: moved =>
    haveI := decidableMovesSafe P (replayMove none occ m) moved
    inferInstanceAs (Decidable (MoveSafe P occ m ∧ MovesSafe P (replayMove none occ m) moved))

theorem isSome_held (P : α → Bool) (occ : Nat → Option α) (i : Nat) :
    (held P occ i).isSome = (occ i).any P := by
  unfold held
  cases occ i with
  | none => rfl
  | some r => cases h : P r <;> simp [h]

theorem syncMove_eq {state : States ι ε γ} (hm : m.2.2 = .unidirectional → m.1 ≠ m.2.1)
    (hswap : m.2.2 = .swap → (state m.1).isSome = (state m.2.1).isSome)
    (hmove : m.2.2 = .unidirectional → (state m.2.1).isSome = true → (state m.1).isSome = true) :
    syncMove state m = replayMove none state m := by
  obtain ⟨a, b, d⟩ := m
  cases d with
  | unidirectional =>
    have hab : a ≠ b := hm rfl
    have hput : (if (state a).isSome then update (state.pop a) b (state a)
        else state.pop a) = update (state.pop a) b (state a) := by
      by_cases ha : (state a).isSome = true
      · rw [if_pos ha]
      refine put_of_none ?_ _
      have hb : ¬ (state b).isSome = true := fun hb => ha (hmove rfl hb)
      rw [pop, update_of_ne (Ne.symm hab)]
      exact Option.not_isSome_iff_eq_none.mp hb
    simp only [syncMove, hput, replayMove]
    funext i
    by_cases hia : i = a
    · simp [hia, hab, pop]
    · by_cases hib : i = b
      · simp [hib, Ne.symm hab]
      · simp [hia, hib, pop, copyRow]
  | swap =>
    have heq := hswap rfl
    simp only [syncMove, replayMove, ← heq]
    by_cases ha : (state a).isSome = true
    · rw [if_pos ha, if_pos ha, swapRows_eq_update]
    -- both rows are without a state
    rw [if_neg ha, if_neg ha]
    have hna := Option.not_isSome_iff_eq_none.mp ha
    rw [heq] at ha
    have hnb := Option.not_isSome_iff_eq_none.mp ha
    rw [swapRows_eq_self (hna.trans hnb.symm)]

theorem syncMoves_eq {P : Request ι ε γ → Bool}
    (hm : ∀ m ∈ moved, m.2.2 = .unidirectional → m.1 ≠ m.2.1) (hsafe : MovesSafe P occ moved) :
    moved.foldl syncMove (held P occ) = held P (replayMoves none occ moved) := by
  induction moved generalizing occ with
  | nil => rfl
  | cons m moved ih =>
    have hstep : syncMove (held P occ) m = held P (replayMove none occ m) := by
      rw [syncMove_eq (hm m (mem_cons_self ..))]
      · exact held_replayMoves P occ [m]
      · intro hd
        have h := hsafe.1
        obtain ⟨a, b, d⟩ := m
        cases hd
        rw [isSome_held, isSome_held]
        exact h
      · intro hd
        have h := hsafe.1
        obtain ⟨a, b, d⟩ := m
        cases hd
        rw [isSome_held, isSome_held]
        exact h
    rw [foldl_cons, hstep, ih (fun m' hm' => hm m' (mem_cons_of_mem _ hm')) hsafe.2]
    rfl

def SyncSafe (occ : States ι ε γ) : Option (BatchUpdate ι ε γ) → Prop
  | none => True
  | some u =>
    MovesSafe Request.budgeted (replayAdded (replayRemoved occ u.removed) u.added) u.moved

instance (occ : States ι ε γ) : ∀ u, Decidable (SyncSafe occ u)
  | none => isTrue trivial
  | some _ => inferInstanceAs (Decidable (MovesSafe _ _ _))

theorem syncBatch_held (h : InputBatch.Replays n u occ occ') (hsafe : SyncSafe occ u) :
    syncBatch true (held Request.budgeted occ) u = held Request.budgeted occ' := by
  cases u with
  | none => rw [show occ' = occ from h, syncBatch]
  | some u =>
    obtain ⟨hform, hrows⟩ := h
    simp only [syncBatch, if_true]
    rw [pop_all, held_replayRemoved, add_all, syncMoves_eq hform.proper hsafe, hrows, replay]

end States

/-! Numbers -/

namespace MinP

def nonzero (n : Nat) (f : Nat → ℚ) : Int := ∑ i ∈ Finset.range n, if f i ≠ 0 then 1 else 0

variable {n i : Nat} {f32 : ℚ → ℚ} {s : MinP} {m : Nat × Nat × MoveDirectionality}
  {u : BatchUpdate ι ε γ} {occ : States ι ε γ}

theorem nonzero_update (hi : i < n) (f : Nat → ℚ) (x : ℚ) :
    nonzero n (update f i x) =
      nonzero n f - (if f i ≠ 0 then 1 else 0) + (if x ≠ 0 then 1 else 0) := by
  have hmem : i ∈ Finset.range n := Finset.mem_range.mpr hi
  unfold nonzero
  rw [← Finset.add_sum_erase _ _ hmem, ← Finset.add_sum_erase (Finset.range n) _ hmem]
  have hrest : ∑ j ∈ (Finset.range n).erase i,
        (if update f i x j ≠ 0 then (1 : Int) else 0) =
      ∑ j ∈ (Finset.range n).erase i, if f j ≠ 0 then 1 else 0 := by
    refine Finset.sum_congr rfl fun j hj => ?_
    rw [update_of_ne (Finset.ne_of_mem_erase hj)]
  rw [update_self]
  omega

theorem eq_zero_of_nonzero {f : Nat → ℚ} (h : nonzero n f = 0) (hi : i < n) : f i = 0 := by
  by_contra hne
  have hpos : ∀ j ∈ Finset.range n, (0 : Int) ≤ if f j ≠ 0 then 1 else 0 := by
    intro j _
    split_ifs <;> simp
  have := (Finset.sum_eq_zero_iff_of_nonneg hpos).mp h i (Finset.mem_range.mpr hi)
  simp [hne] at this

def level (f32 : ℚ → ℚ) (o : Option (Request ι ε γ)) : ℚ := (o.map (fun r => f32 r.minP)).getD 0

def Counted (n : Nat) (s : MinP) : Prop := s.minPCount = nonzero n s.minPCpu

theorem addRequest_cpu (f32 : ℚ → ℚ) (s : MinP) (e : Nat × Request ι ε γ) :
    (s.addRequest f32 e).minPCpu = update s.minPCpu e.1 (f32 e.2.minP) := by
  unfold addRequest
  by_cases heq : s.minPCpu e.1 = f32 e.2.minP
  · simp only [heq, ne_eq, not_true, if_false]
    rw [← heq, update_eq_self]
  · simp [heq]

theorem Counted.add (h : Counted n s) {e : Nat × Request ι ε γ} (hlt : e.1 < n)
    (hexact : f32 e.2.minP = 0 ↔ e.2.minP = 0) : Counted n (s.addRequest f32 e) := by
  unfold Counted at h ⊢
  rw [addRequest_cpu, nonzero_update hlt, ← h]
  unfold addRequest
  simp only [ne_eq, hexact]
  by_cases heq : s.minPCpu e.1 = f32 e.2.minP
  · rw [if_neg (by simp [heq])]
    simp only [heq, hexact]
    split_ifs <;> omega
  rw [if_pos heq]
  by_cases hb : s.minPCpu e.1 = 0
  · have hne : ¬ e.2.minP = 0 := fun hz => heq (by rw [hb, hexact.mpr hz])
    simp [hb, hne]
  · by_cases hz : e.2.minP = 0
    · simp [hb, hz]
    · simp [hb, hz]

theorem removeRequest_cpu (s : MinP) (i : Nat) :
    (s.removeRequest i).minPCpu = update s.minPCpu i 0 := by
  unfold removeRequest
  by_cases hz : s.minPCpu i = 0
  · simp only [hz, ne_eq, not_true, if_false]
    rw [← hz, update_eq_self]
  · simp [hz]

theorem Counted.remove (h : Counted n s) (hlt : i < n) : Counted n (s.removeRequest i) := by
  unfold Counted at h ⊢
  rw [removeRequest_cpu, nonzero_update hlt, ← h]
  unfold removeRequest
  by_cases hz : s.minPCpu i = 0 <;> simp [hz]

theorem moveRequest_cpu (s : MinP) (hm : m.2.2 = .unidirectional → m.1 ≠ m.2.1) :
    (s.moveRequest m).minPCpu = replayMove 0 s.minPCpu m := by
  obtain ⟨a, b, d⟩ := m
  -- the row is written only if the value changes
  have hput : (if s.minPCpu a ≠ s.minPCpu b then update s.minPCpu b (s.minPCpu a)
      else s.minPCpu) = copyRow s.minPCpu a b := by
    by_cases heq : s.minPCpu a = s.minPCpu b
    · rw [if_neg (by simp [heq]), copyRow, heq, update_eq_self]
    · rw [if_pos heq, copyRow]
  cases d with
  | unidirectional =>
    have hab : a ≠ b := hm rfl
    simp only [moveRequest, reduceCtorEq, if_false, if_true, hput, replayMove]
    by_cases hz : s.minPCpu a = 0
    · rw [if_neg (by simp [hz])]
      have ha : copyRow s.minPCpu a b a = 0 := by rw [copyRow_ne _ _ hab, hz]
      rw [← ha, update_eq_self]
    · rw [if_pos hz]
  | swap =>
    simp only [moveRequest, reduceCtorEq, if_false, if_true, replayMove]
    by_cases heq : s.minPCpu a = s.minPCpu b
    · rw [if_neg (by simp [heq]), swapRows_eq_self heq]
    · rw [if_pos heq, swapRows_eq_update]

theorem Counted.move (h : Counted n s) (hm : m.2.2 = .unidirectional → m.1 ≠ m.2.1)
    (hlt : m.1 < n ∧ m.2.1 < n) : Counted n (s.moveRequest m) := by
  unfold Counted at h ⊢
  rw [moveRequest_cpu s hm]
  obtain ⟨a, b, d⟩ := m
  obtain ⟨ha, hb⟩ := hlt
  cases d with
  | unidirectional =>
    have hab : a ≠ b := hm rfl
    simp only [replayMove]
    rw [nonzero_update ha, copyRow_ne _ _ hab, copyRow, nonzero_update hb, ← h]
    simp only [moveRequest]
    by_cases hz : s.minPCpu b = 0 <;> simp [hz]
  | swap =>
    simp only [replayMove]
    rw [swapRows_eq_update, nonzero_update ha, nonzero_update hb, ← h]
    simp only [moveRequest, reduceCtorEq, if_false]
    by_cases hab : a = b
    · simp [hab]
    · rw [update_of_ne hab]
      omega

def settle (s : MinP) (u : BatchUpdate ι ε γ) : MinP :=
  u.moved.foldl moveRequest (u.removed.foldl removeRequest s)

theorem settle_zero (hz : ∀ i < n, s.minPCpu i = 0)
    (hform : Recordable n u.removed u.added u.moved) : s.settle u = s := by
  have hremove (removed : List Nat) (h : ∀ i ∈ removed, i < n) :
      removed.foldl removeRequest s = s := by
    induction removed with
    | nil => rfl
    | cons i removed ih =>
      have hi : s.removeRequest i = s := by
        rw [removeRequest, if_neg (by simp [hz i (h i (mem_cons_self ..))])]
      rw [foldl_cons, hi]
      exact ih fun j hj => h j (mem_cons_of_mem _ hj)
  have hmove (moved : List (Nat × Nat × MoveDirectionality))
      (h : ∀ m ∈ moved, m.1 < n ∧ m.2.1 < n) : moved.foldl moveRequest s = s := by
    induction moved with
    | nil => rfl
    | cons m moved ih =>
      have hs : s.moveRequest m = s := by
        obtain ⟨ha, hb⟩ := h m (mem_cons_self ..)
        obtain ⟨a, b, d⟩ := m
        simp [moveRequest, hz a ha, hz b hb]
      rw [foldl_cons, hs]
      exact ih fun m' hm' => h m' (mem_cons_of_mem _ hm')
  rw [settle, hremove _ hform.removed_lt, hmove _ hform.moved_lt]

theorem level_update (f32 : ℚ → ℚ) (occ : States ι ε γ) (i : Nat) (o : Option (Request ι ε γ)) :
    update (fun i => level f32 (occ i)) i (level f32 o) =
      fun j => level f32 (update occ i o j) := by
  funext j
  by_cases hj : j = i
  · rw [hj, update_self, update_self]
  · rw [update_of_ne hj, update_of_ne hj]

theorem add_level (h : Counted n s) (hcpu : s.minPCpu = fun i => level f32 (occ i))
    {added : List (Nat × Request ι ε γ)} (hlt : ∀ e ∈ added, e.1 < n)
    (hexact : ∀ e ∈ added, f32 e.2.minP = 0 ↔ e.2.minP = 0) :
    (added.foldl (addRequest f32) s).minPCpu = (fun i => level f32 (replayAdded occ added i)) ∧
      Counted n (added.foldl (addRequest f32) s) := by
  induction added generalizing s occ with
  | nil => exact ⟨hcpu, h⟩
  | cons e added ih =>
    refine ih (h.add (hlt e (mem_cons_self ..)) (hexact e (mem_cons_self ..))) ?_
      (fun e' he' => hlt e' (mem_cons_of_mem _ he'))
      (fun e' he' => hexact e' (mem_cons_of_mem _ he'))
    rw [addRequest_cpu, hcpu]
    exact level_update f32 occ e.1 (some e.2)

theorem settle_level (h : Counted n s) (hcpu : s.minPCpu = fun i => level f32 (occ i))
    (hform : Recordable n u.removed u.added u.moved) :
    (s.settle u).minPCpu =
        (fun i => level f32 (replayMoves none (replayRemoved occ u.removed) u.moved i)) ∧
      Counted n (s.settle u) := by
  have hremove (removed : List Nat) (s : MinP) (h : Counted n s) (occ : States ι ε γ)
      (hcpu : s.minPCpu = fun i => level f32 (occ i)) (hlt : ∀ i ∈ removed, i < n) :
      (removed.foldl removeRequest s).minPCpu = (fun i => level f32 (replayRemoved occ removed i)) ∧
        Counted n (removed.foldl removeRequest s) := by
    induction removed generalizing s occ with
    | nil =>
      refine ⟨hcpu.trans ?_, h⟩
      simp [replayRemoved]
    | cons j removed ih =>
      have hcpu' : (s.removeRequest j).minPCpu = fun i => level f32 (update occ j none i) := by
        rw [removeRequest_cpu, hcpu]
        exact level_update f32 occ j none
      obtain ⟨h1, h2⟩ := ih (s.removeRequest j) (h.remove (hlt j (mem_cons_self ..))) _ hcpu'
        fun i hi => hlt i (mem_cons_of_mem _ hi)
      refine ⟨h1.trans ?_, h2⟩
      funext i
      unfold replayRemoved
      by_cases hij : i = j
      · simp [hij]
      · simp [hij]
  have hmove (moved : List (Nat × Nat × MoveDirectionality)) (s : MinP) (h : Counted n s)
      (hm : ∀ m ∈ moved, m.2.2 = .unidirectional → m.1 ≠ m.2.1)
      (hlt : ∀ m ∈ moved, m.1 < n ∧ m.2.1 < n) :
      (moved.foldl moveRequest s).minPCpu = replayMoves 0 s.minPCpu moved ∧
        Counted n (moved.foldl moveRequest s) := by
    induction moved generalizing s with
    | nil => exact ⟨rfl, h⟩
    | cons m moved ih =>
      have hm' := hm m (mem_cons_self ..)
      obtain ⟨h1, h2⟩ := ih (s.moveRequest m) (h.move hm' (hlt m (mem_cons_self ..)))
        (fun m' hm' => hm m' (mem_cons_of_mem _ hm'))
        (fun m' hm' => hlt m' (mem_cons_of_mem _ hm'))
      rw [moveRequest_cpu s hm'] at h1
      exact ⟨h1, h2⟩
  obtain ⟨h1, h2⟩ := hremove u.removed s h occ hcpu hform.removed_lt
  obtain ⟨h3, h4⟩ := hmove u.moved _ h2 hform.proper hform.moved_lt
  refine ⟨h3.trans ?_, h4⟩
  rw [h1]
  funext i
  exact (replayMoves_map (level f32) none _ u.moved i).symm

theorem updateState_level (h : Counted n s) {u : Option (BatchUpdate ι ε γ)} {occ' : States ι ε γ}
    (hu : InputBatch.Replays n u occ occ') (hcpu : s.minPCpu = fun i => level f32 (occ i))
    (hexact : ∀ v, u = some v → ∀ e ∈ v.added, f32 e.2.minP = 0 ↔ e.2.minP = 0) :
    (s.updateState f32 u).minPCpu = (fun i => level f32 (occ' i)) ∧
      Counted n (s.updateState f32 u) := by
  cases u with
  | none =>
    rw [show occ' = occ from hu]
    exact ⟨hcpu, h⟩
  | some u =>
    obtain ⟨hform, hrows⟩ := hu
    obtain ⟨hcpu', h'⟩ := add_level h hcpu hform.added_lt (hexact u rfl)
    have hguard : s.updateState f32 (some u) = (u.added.foldl (addRequest f32) s).settle u := by
      simp only [updateState]
      by_cases hz : (u.added.foldl (addRequest f32) s).minPCount = 0
      · rw [if_neg (by simp [hz])]
        refine (settle_zero (fun i hi => ?_) hform).symm
        exact eq_zero_of_nonzero (h'.symm.trans hz) hi
      · rw [if_pos hz]
        rfl
    rw [hguard, hrows, replay, ← replayRemoved_added occ hform.disjoint]
    exact settle_level h' hcpu' hform

end MinP
end TailBlend.Batch
