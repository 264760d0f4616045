import TailBlend.BatchRows

/-! The calls of a step one after another: what every call keeps is kept by the step. -/
namespace TailBlend.Batch
open Rows OrderedDict List
variable {ι ε γ : Type}

def RequestParams.isPooling : RequestParams → Bool
  | .sampling _ => false
  | .pooling _ => true

/-- The request is of the kind of the batch, and the mask of its prompt covers the prompt. -/
def Request.Suits (r : Request ι ε γ) (config : Config) : Prop :=
  r.params.isPooling = config.isPoolingModel ∧ r.isTokenIds.length = r.numPromptTokens

instance (r : Request ι ε γ) (config : Config) : Decidable (r.Suits config) :=
  inferInstanceAs (Decidable (_ ∧ _))

namespace InputBatch
variable [DecidableEq ι]

/-! Promises of the callers -/

structure Joins (s : InputBatch ι ε γ) (r : Request ι ε γ) : Prop where
  suits : r.Suits s.config
  absent : get? s.reqIdToIndex r.reqId = none
  room : s.numReqs < s.config.maxNumReqs

instance (s : InputBatch ι ε γ) (r : Request ι ε γ) : Decidable (Joins s r) :=
  decidable_of_iff (r.Suits s.config ∧ get? s.reqIdToIndex r.reqId = none ∧
    s.numReqs < s.config.maxNumReqs)
    ⟨fun h => ⟨h.1, h.2.1, h.2.2⟩, fun h => ⟨h.suits, h.absent, h.room⟩⟩

def Held (s : InputBatch ι ε γ) (i : Nat) : Prop := (s.reqIds[i]?).join.isSome

variable {s : InputBatch ι ε γ} {i j : Nat} {K : InputBatch ι ε γ → Prop} {a b : Request ι ε γ}

theorem Indexed.held (h : Indexed s) (hi : Held s i) : ∃ r, s.occupant i = some r := by
  unfold Held at hi
  by_cases hlt : i < s.reqIds.length
  · rw [h.ids i hlt] at hi
    cases hr : s.occupant i with
    | none => simp [hr] at hi
    | some r => exact ⟨r, rfl⟩
  · rw [getElem?_eq_none (by omega)] at hi
    cases hi

/-- Conditions on the calls that take, move and exchange rows, in the state before the call. -/
structure Guards (ι ε γ : Type) where
  add : InputBatch ι ε γ → Request ι ε γ → Prop
  move : InputBatch ι ε γ → Nat → Nat → Prop
  swap : InputBatch ι ε γ → Nat → Nat → Prop

namespace Guards
variable (g : Guards ι ε γ)

/-- Every move of the loop of `condense` meets the condition. -/
def MovesMeet : InputBatch ι ε γ → Nat → List Nat → Prop
  | _, _, [] => True
  | s, last, dst :: removed =>
    skipEmpty (dst :: removed) last ≤ dst ∨
      (g.move s (skipEmpty (dst :: removed) last) dst ∧
        ∀ s', moveRequest { s with builder := { s.builder with removed := removed } }
          (skipEmpty (dst :: removed) last) dst = .ok s' →
          MovesMeet s' (skipEmpty (dst :: removed) last - 1) removed)

def CondenseMeets (s : InputBatch ι ε γ) : Prop :=
  g.MovesMeet { s with builder := s.builder.ensureRemovedSorted }
    (s.numReqs + s.builder.ensureRemovedSorted.removed.length - 1)
    s.builder.ensureRemovedSorted.removed

def AddMeets (s : InputBatch ι ε γ) (r : Request ι ε γ) : Prop := Joins s r ∧ g.add s r

def SwapMeets (s : InputBatch ι ε γ) (p : Nat × Nat) : Prop :=
  Held s p.1 ∧ Held s p.2 ∧ g.swap s p.1 p.2

def Meets (s : InputBatch ι ε γ) (t : Step ι ε γ) : Prop :=
  ∀ s₁, Trace.run removeRequest s t.removed = .ok s₁ →
    Trace.Meets addRequest g.AddMeets s₁ t.added ∧
    ∀ s₂, Trace.run addRequest s₁ t.added = .ok s₂ →
      Trace.Meets (fun s p => s.swapStates p.1 p.2) g.SwapMeets s₂ t.swaps ∧
      ∀ s₃, Trace.run (fun s p => s.swapStates p.1 p.2) s₂ t.swaps = .ok s₃ →
        g.CondenseMeets s₃ ∧
        ∀ s₄, s₃.condense = .ok s₄ →
          Trace.Meets (fun s p => s.swapStates p.1 p.2) g.SwapMeets s₄ t.reordered

section Decidable
variable [∀ s r, Decidable (g.add s r)] [∀ s i j, Decidable (g.move s i j)]
  [∀ s i j, Decidable (g.swap s i j)]

instance decidableMovesMeet : ∀ s last removed, Decidable (g.MovesMeet s last removed)
  | _, _, [] => isTrue trivial
  | s, last, dst :: removed =>
    haveI : DecidablePred fun s' =>
        g.MovesMeet s' (skipEmpty (dst :: removed) last - 1) removed :=
      fun s' => decidableMovesMeet s' _ removed
    inferInstanceAs (Decidable (skipEmpty (dst :: removed) last ≤ dst ∨
      (g.move s (skipEmpty (dst :: removed) last) dst ∧
        ∀ s', moveRequest { s with builder := { s.builder with removed := removed } }
          (skipEmpty (dst :: removed) last) dst = .ok s' →
          g.MovesMeet s' (skipEmpty (dst :: removed) last - 1) removed)))

section
variable (s : InputBatch ι ε γ)

instance : Decidable (g.CondenseMeets s) :=
  inferInstanceAs (Decidable (g.MovesMeet _ _ _))

instance (r : Request ι ε γ) : Decidable (g.AddMeets s r) :=
  inferInstanceAs (Decidable (_ ∧ _))

instance (p : Nat × Nat) : Decidable (g.SwapMeets s p) :=
  inferInstanceAs (Decidable ((s.reqIds[p.1]?).join.isSome ∧ (s.reqIds[p.2]?).join.isSome ∧ _))

instance (t : Step ι ε γ) : Decidable (g.Meets s t) := by
  unfold Meets
  infer_instance

end

end Decidable
end Guards

/-- `K` is kept by every call that meets its condition. -/
structure Kept (g : Guards ι ε γ) (K : InputBatch ι ε γ → Prop) : Prop where
  remove : ∀ {s : InputBatch ι ε γ} {r : Request ι ε γ} {i : Nat}, Open s →
    s.builder.added = [] → s.builder.moved = [] → s.occupant i = some r → K s →
    K (s.cleared r.reqId i)
  add : ∀ {s : InputBatch ι ε γ} {r : Request ι ε γ} {i : Nat} {rest : List Nat}, Open s →
    s.builder.moved = [] → NextRow s i rest → Joins s r → g.add s r → K s → K (s.joined i r)
  swap : ∀ {s : InputBatch ι ε γ} {a b : Request ι ε γ} {i j : Nat}, Indexed s → Vacant s →
    s.occupant i = some a → s.occupant j = some b → g.swap s i j → K s → K (s.swapped a b i j)
  sort : ∀ {s : InputBatch ι ε γ}, Open s → K s →
    K { s with builder := s.builder.ensureRemovedSorted }
  move : ∀ {s : InputBatch ι ε γ} {r : Request ι ε γ} {last dst : Nat} {removed : List Nat},
    Condensing s last (dst :: removed) → s.builder.removed = dst :: removed →
    s.occupant last = some r → dst < last → g.move s last dst → K s →
    K (s.shifted r last dst removed)
  trim : ∀ {s : InputBatch ι ε γ} {n : Nat}, Indexed s → (∀ i, n ≤ i → s.occupant i = none) →
    K s → K (s.trim n)

/-! Removals and additions -/

structure Ready (s : InputBatch ι ε γ) : Prop extends Closed s where
  record : s.builder = .empty

theorem init_ready (config : Config) : Ready (init config : InputBatch ι ε γ) := by
  refine ⟨⟨⟨?_, fun _ _ => rfl, fun id i => ?_, nodup_nil, Nat.zero_le _⟩, ?_, rfl, ?_⟩, rfl⟩
  · intro i hi
    cases hi
  · constructor
    · intro h
      cases h
    · rintro ⟨r, hr, -⟩
      cases hr
  · intro i hi
    cases hi
  · intro i hi
    cases hi

theorem Ready.open (h : Ready s) : Open s := by
  have hremoved : s.builder.removed = [] := by
    rw [h.record]
    rfl
  refine ⟨h.toIndexed, ?_, fun i hi => ?_, fun i hi => ?_, ?_, fun _ => ?_⟩
  · rw [hremoved]
    exact nodup_nil
  · rw [hremoved]
    exact ⟨fun hnone => absurd hnone (h.full i hi), fun hmem => absurd hmem not_mem_nil⟩
  · rw [hremoved] at hi
    cases hi
  · rw [hremoved]
    exact h.count
  · rw [hremoved]
    exact Pairwise.nil

structure Removing (K : InputBatch ι ε γ → Prop) (s : InputBatch ι ε γ) : Prop extends Open s where
  unread : s.builder.isRemovedSorted = false
  added : s.builder.added = []
  moved : s.builder.moved = []
  keep : K s

theorem cleared_same (s : InputBatch ι ε γ) (id : ι) (i : Nat) :
    SameRows (s.forget id i) (s.cleared id i) ∧
      (s.cleared id i).builder = { s.builder with removed := s.builder.removed ++ [i] } := by
  obtain ⟨⟨h1, h2, h3, h4⟩, hbuilder⟩ := clearRow_same (forget { s with
    builder := { s.builder with removed := s.builder.removed ++ [i] } } id i) i
  exact ⟨⟨h1, h2, h3, h4⟩, hbuilder⟩

variable {g : Guards ι ε γ} {removed : List Nat} {t : Step ι ε γ}

theorem Removing.remove (hK : Kept g K) (h : Removing K s) (id : ι) :
    ∃ s', s.removeRequest id = .ok s' ∧ Removing K s' := by
  cases hi : get? s.reqIdToIndex id with
  | none => exact ⟨s, by rw [removeRequest, hi], h⟩
  | some i =>
    obtain ⟨r, hr, rfl⟩ := (h.index id i).mp hi
    obtain ⟨-, hbuilder⟩ := s.cleared_same r.reqId i
    refine ⟨_, removeRequest_some hi h.unread, h.toOpen.remove h.unread hi, ?_, ?_, ?_,
      hK.remove h.toOpen h.added h.moved hr h.keep⟩
    all_goals rw [hbuilder]
    · exact h.unread
    · exact h.added
    · exact h.moved

structure Adding (K : InputBatch ι ε γ → Prop) (s : InputBatch ι ε γ) : Prop extends Open s where
  moved : s.builder.moved = []
  keep : K s

theorem Open.nextRow_lt (h : Open s) {rest : List Nat} (hn : NextRow s i rest)
    (hroom : s.numReqs < s.config.maxNumReqs) : i < s.config.maxNumReqs := by
  have hfits := h.fits
  have hcount := h.count
  rcases hn.row with ⟨hi, hnil, -⟩ | ⟨-, hlt⟩
  · rw [hnil, length_nil] at hcount
    omega
  · omega

theorem joined_same (s : InputBatch ι ε γ) (i : Nat) (r : Request ι ε γ) :
    SameRows (s.place i r) (s.joined i r) ∧ (s.joined i r).builder = s.registered i r := by
  obtain ⟨⟨h1, h2, h3, h4⟩, hbuilder⟩ := setRow_same
    (place { s with builder := s.registered i r } i r) i r
  obtain ⟨hd, ho, hb, hc⟩ := place_rest { s with builder := s.registered i r } i r
  obtain ⟨hd', ho', -, hc'⟩ := s.place_rest i r
  refine ⟨⟨h1.trans (hc.trans hc'.symm), h2.trans ?_, h3.trans (hd.trans hd'.symm),
    h4.trans (ho.trans ho'.symm)⟩, hbuilder.trans hb⟩
  rw [place_reqIds, place_reqIds]

theorem Adding.add (hK : Kept g K) (h : Adding K s) {r : Request ι ε γ} (hr : g.AddMeets s r) :
    ∃ s', s.addRequest r = .ok s' ∧ Adding K s' := by
  obtain ⟨i, rest, hn⟩ := h.toOpen.nextRow
  obtain ⟨hjoins, hg⟩ := hr
  have hcap := h.toOpen.nextRow_lt hn hjoins.room
  obtain ⟨-, hbuilder⟩ := s.joined_same i r
  refine ⟨_, addRequest_eq hn hcap r, h.toOpen.add hjoins.absent hn hcap, ?_,
    hK.add h.toOpen h.moved hn hjoins hg h.keep⟩
  rw [hbuilder, (s.registered_eq i r).2.2, hn.moved]
  exact h.moved

/-! Exchanges -/

theorem Open.vacant (h : Open s) : Vacant s := by
  intro i hi
  exact (h.empty i (h.removed_lt i hi)).mpr hi

theorem Indexed.swapped (h : Indexed s) (ha : s.occupant i = some a) (hb : s.occupant j = some b) :
    Indexed (s.swapped a b i j) :=
  (h.exchange ha hb).of_same (s.swapped_same a b i j).1

theorem swapped_numReqs (h : Indexed s) (ha : s.occupant i = some a) (hb : s.occupant j = some b) :
    (s.swapped a b i j).numReqs = s.numReqs := by
  have hka := mem_keys_of_get? ((h.index a.reqId i).mpr ⟨a, ha, rfl⟩)
  have hkb := mem_keys_of_get? ((h.index b.reqId j).mpr ⟨b, hb, rfl⟩)
  have hkeys : ((set (set s.reqIdToIndex a.reqId j) b.reqId i).map
      Prod.fst) = s.reqIdToIndex.map Prod.fst := by
    have h1 := keys_set s.reqIdToIndex a.reqId j
    rw [if_pos hka] at h1
    rw [keys_set, h1, if_pos hkb]
  rw [numReqs, (s.swapped_same a b i j).1.reqIdToIndex]
  simpa [numReqs, exchange] using congrArg length hkeys

theorem swapped_occupant (s : InputBatch ι ε γ) (a b : Request ι ε γ) (i j k : Nat) :
    (s.swapped a b i j).occupant k = s.occupant (Equiv.swap i j k) := by
  rw [(s.swapped_same a b i j).1.occupant]
  rfl

theorem swapped_none (ha : s.occupant i = some a) (hb : s.occupant j = some b) (k : Nat) :
    (s.swapped a b i j).occupant k = none ↔ s.occupant k = none := by
  rw [swapped_occupant]
  by_cases hi : k = i
  · rw [hi, Equiv.swap_apply_left, ha, hb]
    simp
  by_cases hj : k = j
  · rw [hj, Equiv.swap_apply_right, ha, hb]
    simp
  · rw [Equiv.swap_apply_of_ne_of_ne hi hj]

theorem swapped_length (s : InputBatch ι ε γ) (a b : Request ι ε γ) (i j : Nat) :
    (s.swapped a b i j).reqIds.length = s.reqIds.length := by
  rw [(s.swapped_same a b i j).1.reqIds]
  exact length_swapList ..

theorem Open.swap (h : Open s) (ha : s.occupant i = some a) (hb : s.occupant j = some b) :
    Open (s.swapped a b i j) := by
  have hbuilder := (s.swapped_same a b i j).2
  refine ⟨h.toIndexed.swapped ha hb, ?_, ?_, ?_, ?_, ?_⟩
  · rw [hbuilder]
    exact h.nodup
  · intro k hk
    rw [swapped_length] at hk
    rw [swapped_none ha hb, hbuilder]
    exact h.empty k hk
  · rw [hbuilder, swapped_length]
    exact h.removed_lt
  · rw [swapped_numReqs h.toIndexed ha hb, swapped_length, hbuilder]
    exact h.count
  · rw [hbuilder]
    exact h.sorted

theorem Closed.swap (h : Closed s) (ha : s.occupant i = some a) (hb : s.occupant j = some b) :
    Closed (s.swapped a b i j) := by
  have hbuilder := (s.swapped_same a b i j).2
  refine ⟨h.toIndexed.swapped ha hb, ?_, ?_, ?_⟩
  · intro k hk
    rw [swapped_length] at hk
    rw [ne_eq, swapped_none ha hb]
    exact h.full k hk
  · rw [swapped_numReqs h.toIndexed ha hb, swapped_length]
    exact h.count
  · unfold Vacant
    rw [hbuilder]
    intro k hk
    rw [swapped_none ha hb]
    exact h.vacant k hk

theorem Kept.swaps {J : InputBatch ι ε γ → Prop} (hK : Kept g K)
    (hJ : ∀ s, J s → Indexed s ∧ Vacant s)
    (hswap : ∀ {s : InputBatch ι ε γ} {a b : Request ι ε γ} {i j : Nat}, J s →
      s.occupant i = some a → s.occupant j = some b → J (s.swapped a b i j)) {ps : List (Nat × Nat)}
    (h : J s) (hk : K s) (hm : Trace.Meets (fun s p => s.swapStates p.1 p.2) g.SwapMeets s ps) :
    ∃ s', Trace.run (fun s p => s.swapStates p.1 p.2) s ps = .ok s' ∧ J s' ∧ K s' := by
  refine Trace.run_ok (P := g.SwapMeets) (I := fun s => J s ∧ K s) ?_ ⟨h, hk⟩ hm
  rintro s ⟨i, j⟩ ⟨h, hk⟩ ⟨hi, hj, hg⟩
  obtain ⟨hind, hvac⟩ := hJ s h
  obtain ⟨a, ha⟩ := hind.held hi
  obtain ⟨b, hb⟩ := hind.held hj
  exact ⟨_, swapStates_eq hind ha hb, hswap h ha hb, hK.swap hind hvac ha hb hg hk⟩

/-! `condense` -/

theorem Kept.loop (hK : Kept g K) {last : Nat} (h : Condensing s last removed)
    (hb : s.builder.removed = removed) (hm : g.MovesMeet s last removed) (hk : K s) :
    ∃ s', s.condenseLoop last removed = .ok s' ∧ Indexed s' ∧ Vacant s' ∧
      s'.numReqs = s.numReqs ∧ s'.numReqs ≤ s'.reqIds.length ∧
      (∀ i, s'.occupant i ≠ none ↔ i < s'.numReqs) ∧ K s' := by
  -- the loop ends when no empty row is left below the last request
  have hstop {s : InputBatch ι ε γ} {last : Nat} {removed : List Nat}
      (h : Condensing s last removed) (hb : s.builder.removed = removed) (hk : K s)
      (hno : ∀ i ∈ removed, last < i) : Indexed s ∧ Vacant s ∧ s.numReqs = s.numReqs ∧
        s.numReqs ≤ s.reqIds.length ∧ (∀ i, s.occupant i ≠ none ↔ i < s.numReqs) ∧ K s := by
    obtain ⟨hnum, hrows⟩ := h.done hno
    have hlt := h.last_lt
    refine ⟨h.toIndexed, fun i hi => h.above i (hno i (hb ▸ hi)), rfl, by omega, hrows, hk⟩
  induction removed generalizing s last with
  | nil => exact ⟨s, rfl, hstop h hb hk (by simp)⟩
  | cons dst removed ih =>
    have hskip := h.skip
    rw [condenseLoop]
    by_cases hle : skipEmpty (dst :: removed) last ≤ dst
    · refine ⟨s, if_pos hle, hstop hskip hb hk fun i hi => ?_⟩
      have hdst : dst ≤ i := by
        rcases mem_cons.mp hi with hi | hi
        · omega
        · exact rel_of_pairwise_cons h.sorted hi
      have hne : skipEmpty (dst :: removed) last ≠ i := by
        rintro rfl
        exact h.skip_notMem hi
      omega
    simp only [if_neg hle]
    obtain ⟨r, hr, hmove, hnext, hnum, hrec⟩ := hskip.move h.skip_notMem (by omega)
    rcases hm with hm | ⟨hg, hm⟩
    · exact absurd hm hle
    obtain ⟨s', hs', hind, hvac, hnum', hrest⟩ := ih hnext hrec (hm _ hmove)
      (hK.move hskip hb hr (by omega) hg hk)
    refine ⟨s', ?_, hind, hvac, hnum'.trans hnum, hrest⟩
    rw [seq_ok_iff]
    exact ⟨_, hmove, hs'⟩

theorem card_filled {n : Nat} (hnodup : removed.Nodup)
    (hlt : ∀ i ∈ removed, i < n) :
    ((Finset.range n).filter (fun i => i ∉ removed)).card + removed.length = n := by
  have hsub : removed.toFinset ⊆ Finset.range n := by
    intro i hi
    rw [Finset.mem_range]
    exact hlt i (mem_toFinset.mp hi)
  have heq : (Finset.range n).filter (fun i => i ∉ removed) =
      Finset.range n \ removed.toFinset := by
    ext i
    simp
  rw [heq, Finset.card_sdiff_of_subset hsub, toFinset_card_of_nodup hnodup, Finset.card_range]
  have hle := Finset.card_le_card hsub
  rw [toFinset_card_of_nodup hnodup, Finset.card_range] at hle
  omega

theorem Open.sort (h : Open s) : Open { s with builder := s.builder.ensureRemovedSorted } := by
  obtain ⟨hperm, hpair, -, -⟩ := ensureRemovedSorted_spec h.sorted
  refine ⟨⟨h.ids, h.beyond, h.index, h.keys, h.fits⟩, hperm.nodup_iff.mp h.nodup, fun i hi => ?_,
    fun i hi => ?_, ?_, fun _ => hpair⟩
  · rw [← hperm.mem_iff]
    exact h.empty i hi
  · exact h.removed_lt i (hperm.mem_iff.mpr hi)
  · rw [← hperm.length_eq]
    exact h.count

theorem Open.condensing (h : Open s) (hpair : s.builder.removed.Pairwise (· ≤ ·))
    (hpos : 0 < s.numReqs) :
    Condensing s (s.numReqs + s.builder.removed.length - 1) s.builder.removed := by
  have hcount := h.count
  have hcard := card_filled h.nodup h.removed_lt
  have hlen : s.numReqs + s.builder.removed.length - 1 + 1 = s.reqIds.length := by omega
  refine ⟨h.toIndexed, h.nodup, hpair, by omega, fun i hi => h.empty i (by omega),
    fun i hi => h.beyond i (by omega), ?_, hpos⟩
  rw [hlen]
  omega

theorem Indexed.trim (h : Indexed s) {n : Nat} (hn : ∀ i, n ≤ i → s.occupant i = none) :
    Indexed (s.trim n) := by
  refine ⟨fun i hi => ?_, fun i hi => ?_, h.index, h.keys, ?_⟩
  all_goals simp only [InputBatch.trim, length_take] at *
  · rw [getElem?_take_of_lt (by omega)]
    exact h.ids i (by omega)
  · by_cases hni : n ≤ i
    · exact hn i hni
    · exact h.beyond i (by omega)
  · have := h.fits
    omega

theorem Kept.condense (hK : Kept g K) (h : Open s) (hm : g.CondenseMeets s) (hk : K s) :
    ∃ s', s.condense = .ok s' ∧ Closed s' ∧ K s' := by
  have hsort := h.sort
  have hk' := hK.sort h hk
  obtain ⟨-, hpair, -, -⟩ := ensureRemovedSorted_spec h.sorted
  unfold InputBatch.condense
  generalize hs1 :
    ({ s with builder := s.builder.ensureRemovedSorted } : InputBatch ι ε γ) = s1 at *
  have hm : g.MovesMeet s1 (s1.numReqs + s1.builder.removed.length - 1) s1.builder.removed := by
    rw [← hs1]
    exact hm
  replace hpair : s1.builder.removed.Pairwise (· ≤ ·) := by
    rw [← hs1]
    exact hpair
  have hcount := hsort.count
  by_cases hnil : s1.builder.removed = []
  · refine ⟨s1, if_pos hnil, ⟨hsort.toIndexed, fun i hi => ?_, ?_, hsort.vacant⟩, hk'⟩
    · rw [ne_eq, hsort.empty i hi, hnil]
      exact not_mem_nil
    · rw [hnil] at hcount
      omega
  simp only [if_neg hnil]
  by_cases hzero : s1.numReqs = 0
  · have hnone (i : Nat) : s1.occupant i = none := by
      cases hr : s1.occupant i with
      | none => rfl
      | some r =>
        have hdict : s1.reqIdToIndex = [] := eq_nil_of_length_eq_zero hzero
        have := (hsort.index r.reqId i).mpr ⟨r, hr, rfl⟩
        rw [hdict] at this
        cases this
    refine ⟨s1.trim 0, if_pos hzero, ⟨hsort.toIndexed.trim fun i _ => hnone i, fun i hi => ?_, ?_,
      fun i _ => hnone i⟩, hK.trim hsort.toIndexed (fun i _ => hnone i) hk'⟩
    · simp [InputBatch.trim] at hi
    · exact hzero
  rw [if_neg hzero]
  obtain ⟨s', hs', hind, hvac, hnum, hle, hrows, hks⟩ :=
    hK.loop (hsort.condensing hpair (by omega)) rfl hm hk'
  have hbeyond (i : Nat) (hi : s1.numReqs ≤ i) : s'.occupant i = none := by
    by_contra hne
    have := (hrows i).mp hne
    omega
  refine ⟨s'.trim s1.numReqs, ?_, ⟨hind.trim hbeyond, fun i hi => ?_, ?_, hvac⟩,
    hK.trim hind hbeyond hks⟩
  · rw [seq_ok_iff]
    exact ⟨s', hs', rfl⟩
  · refine (hrows i).mpr ?_
    simp only [InputBatch.trim, length_take] at hi
    omega
  · have : (s'.trim s1.numReqs).numReqs = s'.numReqs := rfl
    rw [this]
    simp only [InputBatch.trim, length_take]
    omega

/-! Steps -/

theorem Kept.arrange (hK : Kept g K) (h : Ready s) (hk : K s) (hm : g.Meets s t) :
    ∃ s', s.arrange t = .ok s' ∧ Closed s' ∧ K s' := by
  have hstart : Removing K s := by
    refine ⟨h.open, ?_, ?_, ?_, hk⟩
    all_goals rw [h.record]; rfl
  obtain ⟨s1, hs1, hremoved⟩ := Trace.run_ok (P := fun _ _ => True)
    (fun s id hs _ => hs.remove hK id) hstart (Trace.meets_of_forall (fun _ _ => trivial) _)
  obtain ⟨hm1, hm⟩ := hm s1 hs1
  obtain ⟨s2, hs2, hadded⟩ := Trace.run_ok (P := g.AddMeets) (I := Adding K)
    (fun s r hs hr => hs.add hK hr) ⟨hremoved.toOpen, hremoved.moved, hremoved.keep⟩ hm1
  obtain ⟨hm2, hm⟩ := hm s2 hs2
  obtain ⟨s3, hs3, hopen, hk3⟩ := hK.swaps (fun s hs => ⟨hs.toIndexed, Open.vacant hs⟩)
    (fun h ha hb => Open.swap h ha hb) hadded.toOpen hadded.keep hm2
  obtain ⟨hm3, hm4⟩ := hm s3 hs3
  obtain ⟨s4, hs4, hclosed, hk4⟩ := hK.condense hopen hm3 hk3
  obtain ⟨s', hs', hclosed', hk'⟩ := hK.swaps (fun s hs => ⟨hs.toIndexed, Closed.vacant hs⟩)
    (fun h ha hb => Closed.swap h ha hb) hclosed hk4 (hm4 s4 hs4)
  refine ⟨s', ?_, hclosed', hk'⟩
  rw [InputBatch.arrange]
  simp only [seq_ok_iff]
  exact ⟨s1, hs1, s2, hs2, s3, hs3, s4, hs4, hs'⟩

theorem Kept.step (hK : Kept g K) (h : Ready s) (hk : K s) (hm : g.Meets s t) :
    ∃ s', s.arrange t = .ok s' ∧ K s' ∧ s.step t = .ok s'.refreshMetadata ∧
      Ready s'.refreshMetadata.2 := by
  obtain ⟨s', hs', hclosed, hk'⟩ := hK.arrange h hk hm
  refine ⟨s', hs', hk', ?_, ⟨⟨⟨hclosed.ids, hclosed.beyond, hclosed.index, hclosed.keys,
    hclosed.fits⟩, hclosed.full, hclosed.count, fun i hi => ?_⟩, rfl⟩⟩
  · rw [InputBatch.step, seq_ok_iff]
    exact ⟨s', hs', rfl⟩
  · cases hi

end InputBatch
end TailBlend.Batch
