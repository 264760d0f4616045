import TailBlend.InputBatch
import Mathlib.Data.List.Sort
import Mathlib.Data.Finset.Card

/-! The requests at the rows of the batch and where they are found, after each call. -/
namespace TailBlend.Batch
open Rows OrderedDict Function List
variable {ι ε γ : Type}

namespace InputBatch

/-! What the columns leave alone -/

structure SameRows (s s' : InputBatch ι ε γ) : Prop where
  config : s'.config = s.config
  reqIds : s'.reqIds = s.reqIds
  reqIdToIndex : s'.reqIdToIndex = s.reqIdToIndex
  occupant : s'.occupant = s.occupant

section
variable (s : InputBatch ι ε γ)

theorem setRow_same (i : Nat) (r : Request ι ε γ) :
    SameRows s (s.setRow i r) ∧ (s.setRow i r).builder = s.builder := by
  unfold setRow setTokens setSampling
  simp only
  split <;> exact ⟨⟨rfl, rfl, rfl, rfl⟩, rfl⟩

theorem clearRow_same (i : Nat) :
    SameRows s (s.clearRow i) ∧ (s.clearRow i).builder = s.builder := by
  unfold clearRow
  simp only
  split_ifs <;> exact ⟨⟨rfl, rfl, rfl, rfl⟩, rfl⟩

theorem swapColumns_same (i1 i2 : Nat) :
    SameRows s (s.swapColumns i1 i2) ∧
      (s.swapColumns i1 i2).builder = if s.config.isPoolingModel then s.builder
        else { s.builder with moved := s.builder.moved ++ [(i1, i2, .swap)] } := by
  unfold swapColumns
  simp only
  split_ifs <;> exact ⟨⟨rfl, rfl, rfl, rfl⟩, rfl⟩

theorem moveColumns_same (last dst : Nat) :
    SameRows s (s.moveColumns last dst) ∧
      (s.moveColumns last dst).builder = if s.config.isPoolingModel then s.builder
        else { s.builder with moved := s.builder.moved ++ [(last, dst, .unidirectional)] } := by
  unfold moveColumns
  simp only
  split_ifs <;> exact ⟨⟨rfl, rfl, rfl, rfl⟩, rfl⟩

end

variable [DecidableEq ι]

/-! Rows and identifiers -/

section
variable (s : InputBatch ι ε γ)

/-- The identifiers and the index of the batch are those of the requests at the rows. -/
structure Indexed : Prop where
  ids : ∀ i < s.reqIds.length, s.reqIds[i]? = some ((s.occupant i).map (fun r => r.reqId))
  beyond : ∀ i, s.reqIds.length ≤ i → s.occupant i = none
  index : ∀ id i, get? s.reqIdToIndex id = some i ↔
    ∃ r, s.occupant i = some r ∧ r.reqId = id
  keys : (s.reqIdToIndex.map Prod.fst).Nodup
  fits : s.reqIds.length ≤ s.config.maxNumReqs

structure Open : Prop extends Indexed s where
  nodup : s.builder.removed.Nodup
  empty : ∀ i < s.reqIds.length, s.occupant i = none ↔ i ∈ s.builder.removed
  removed_lt : ∀ i ∈ s.builder.removed, i < s.reqIds.length
  count : s.numReqs + s.builder.removed.length = s.reqIds.length
  sorted : s.builder.isRemovedSorted = true → s.builder.removed.Pairwise (· ≤ ·)

def Vacant : Prop := ∀ i ∈ s.builder.removed, s.occupant i = none

structure Closed : Prop extends Indexed s where
  full : ∀ i < s.reqIds.length, s.occupant i ≠ none
  count : s.numReqs = s.reqIds.length
  vacant : Vacant s

end

variable {s : InputBatch ι ε γ} {i i1 i2 last : Nat} {r a b : Request ι ε γ} {id : ι}
  {d : List (ι × Nat)} {rest removed : List Nat}

theorem Indexed.of_same {s' : InputBatch ι ε γ} (h : Indexed s) (hs : SameRows s s') :
    Indexed s' := by
  obtain ⟨h1, h2, h3, h4, h5⟩ := h
  constructor
  · rw [hs.reqIds, hs.occupant]
    exact h1
  · rw [hs.reqIds, hs.occupant]
    exact h2
  · rw [hs.reqIdToIndex, hs.occupant]
    exact h3
  · rw [hs.reqIdToIndex]
    exact h4
  · rw [hs.reqIds, hs.config]
    exact h5

theorem Indexed.unique (h : Indexed s) {j : Nat} {r' : Request ι ε γ} (hi : s.occupant i = some r)
    (hj : s.occupant j = some r') (hid : r.reqId = r'.reqId) : i = j := by
  have h1 := (h.index r.reqId i).mpr ⟨r, hi, rfl⟩
  have h2 := (h.index r.reqId j).mpr ⟨r', hj, hid.symm⟩
  exact Option.some.inj (h1.symm.trans h2)

theorem Indexed.lt (h : Indexed s) (hi : s.occupant i = some r) : i < s.reqIds.length := by
  by_contra hle
  rw [h.beyond i (by omega)] at hi
  cases hi

/-! Calls -/

def cleared (s : InputBatch ι ε γ) (id : ι) (i : Nat) : InputBatch ι ε γ :=
  (forget { s with builder := { s.builder with removed := s.builder.removed ++ [i] } }
    id i).clearRow i

theorem removeRequest_some (hi : get? s.reqIdToIndex id = some i)
    (hsorted : s.builder.isRemovedSorted = false) : s.removeRequest id = .ok (s.cleared id i) := by
  have happend : s.builder.removedAppend i =
      .ok { s.builder with removed := s.builder.removed ++ [i] } := by
    rw [BatchUpdateBuilder.removedAppend, if_neg (by simp [hsorted])]
  rw [removeRequest, hi]
  simp only [happend]
  rfl

theorem Indexed.forget (h : Indexed s) (hi : get? s.reqIdToIndex id = some i) :
    Indexed (s.forget id i) := by
  obtain ⟨r, hr, hid⟩ := (h.index id i).mp hi
  have hlen : (s.forget id i).reqIds.length = s.reqIds.length := length_set
  refine ⟨fun j hj => ?_, fun j hj => ?_, fun id' j => ?_, nodup_keys_erase h.keys id,
    hlen.trans_le h.fits⟩
  · rw [hlen] at hj
    simp only [InputBatch.forget]
    by_cases hij : i = j
    · rw [hij, getElem?_set_self hj, update_self]
      rfl
    · rw [getElem?_set_ne hij, update_of_ne (Ne.symm hij)]
      exact h.ids j hj
  · rw [hlen] at hj
    simp only [InputBatch.forget]
    rw [update_of_ne (by have := h.lt hr; omega)]
    exact h.beyond j hj
  · simp only [InputBatch.forget]
    by_cases hid' : id' = id
    · rw [hid', get?_erase_self]
      constructor
      · intro hnone
        cases hnone
      rintro ⟨r', hr', hr''⟩
      by_cases hij : j = i
      · rw [hij, update_self] at hr'
        cases hr'
      · rw [update_of_ne hij] at hr'
        exact absurd (h.unique hr' hr (hr''.trans hid.symm)) hij
    rw [get?_erase_of_ne _ hid', h.index id' j]
    by_cases hij : j = i
    · rw [hij, update_self]
      constructor
      · rintro ⟨r', hr', hr''⟩
        rw [hr] at hr'
        cases hr'
        exact absurd (hr''.symm.trans hid) hid'
      · rintro ⟨r', hr', -⟩
        cases hr'
    · rw [update_of_ne hij]

theorem Open.remove (h : Open s) (hsorted : s.builder.isRemovedSorted = false)
    (hi : get? s.reqIdToIndex id = some i) : Open (s.cleared id i) := by
  obtain ⟨r, hr, hid⟩ := (h.index id i).mp hi
  have hlt := h.lt hr
  have hnot : i ∉ s.builder.removed := by
    rw [← h.empty i hlt, hr]
    simp
  set s1 : InputBatch ι ε γ := { s with
    builder := { s.builder with removed := s.builder.removed ++ [i] } } with hs1
  obtain ⟨hsame, hbuilder⟩ : SameRows (s1.forget id i) (s.cleared id i) ∧
      (s.cleared id i).builder = s1.builder := clearRow_same (s1.forget id i) i
  have hind : Indexed s1 := ⟨h.ids, h.beyond, h.index, h.keys, h.fits⟩
  refine ⟨(hind.forget hi).of_same hsame, ?_, ?_, ?_, ?_, ?_⟩
  · rw [hbuilder]
    exact nodup_append.mpr ⟨h.nodup, nodup_singleton i, fun a ha b hb hab =>
      hnot (by rw [← mem_singleton.mp hb, ← hab]; exact ha)⟩
  · rw [hsame.reqIds, hsame.occupant, hbuilder]
    intro j hj
    have hj' : j < s.reqIds.length := by
      simpa [forget] using hj
    simp only [forget, hs1, mem_append]
    by_cases hij : j = i
    · rw [hij]
      simp
    · rw [update_of_ne hij, h.empty j hj']
      simp [hij]
  · rw [hsame.reqIds, hbuilder]
    intro j hj
    simp only [forget, hs1, mem_append, mem_singleton, length_set] at hj ⊢
    rcases hj with hj | hj
    · exact h.removed_lt j hj
    · rw [hj]
      exact hlt
  · have hlen : _ = (erase s.reqIdToIndex id).length + 1 := (perm_cons_erase h.keys hi).length_eq
    have hcount := h.count
    have hn : s.numReqs = s.reqIdToIndex.length := rfl
    rw [numReqs, hsame.reqIds, hsame.reqIdToIndex, hbuilder]
    simp only [forget, hs1, length_append, length_singleton, length_set]
    omega
  · rw [hbuilder]
    intro hs
    exact absurd (hsorted.symm.trans hs) Bool.false_ne_true

omit [DecidableEq ι] in
theorem ensureRemovedSorted_spec {b : BatchUpdateBuilder ι ε γ}
    (h : b.isRemovedSorted = true → b.removed.Pairwise (· ≤ ·)) :
    b.removed.Perm b.ensureRemovedSorted.removed ∧
      b.ensureRemovedSorted.removed.Pairwise (· ≤ ·) ∧
      b.ensureRemovedSorted.added = b.added ∧ b.ensureRemovedSorted.moved = b.moved := by
  unfold BatchUpdateBuilder.ensureRemovedSorted
  by_cases hs : b.isRemovedSorted = true
  · rw [if_pos hs]
    exact ⟨Perm.refl _, h hs, rfl, rfl⟩
  · rw [if_neg hs]
    exact ⟨(mergeSort_perm _ _).symm, pairwise_mergeSort' (· ≤ ·) b.removed, rfl, rfl⟩

structure NextRow (s : InputBatch ι ε γ) (i : Nat) (rest : List Nat) : Prop where
  index : (s.builder.popRemoved.1).getD s.numReqs = i
  removed : s.builder.popRemoved.2.removed = rest
  sorted : s.builder.popRemoved.2.isRemovedSorted = true → rest.Pairwise (· ≤ ·)
  added : s.builder.popRemoved.2.added = s.builder.added
  moved : s.builder.popRemoved.2.moved = s.builder.moved
  row : (i = s.reqIds.length ∧ s.builder.removed = [] ∧ rest = []) ∨
    (s.builder.removed.Perm (i :: rest) ∧ i < s.reqIds.length)

theorem Open.nextRow (h : Open s) : ∃ i rest, NextRow s i rest := by
  by_cases hnil : s.builder.removed = []
  · have hpop : s.builder.popRemoved = (none, s.builder) := if_pos hnil
    have hcount := h.count
    rw [hnil] at hcount
    refine ⟨s.reqIds.length, [], ?_, ?_, fun _ => Pairwise.nil, ?_, ?_, .inl ⟨rfl, hnil, rfl⟩⟩
    all_goals rw [hpop]
    · exact hcount
    · exact hnil
  obtain ⟨hperm, hpair, hadded, hmoved⟩ := ensureRemovedSorted_spec h.sorted
  generalize hb : s.builder.ensureRemovedSorted = b at hperm hpair hadded hmoved
  have hpop : s.builder.popRemoved = (b.removed.head?, { b with removed := b.removed.tail }) := by
    rw [BatchUpdateBuilder.popRemoved, if_neg hnil, hb]
  cases hbr : b.removed with
  | nil =>
    rw [hbr] at hperm
    exact absurd hperm.eq_nil hnil
  | cons i rest =>
    rw [hbr] at hperm hpair hpop
    refine ⟨i, rest, ?_, ?_, fun _ => hpair.of_cons, ?_, ?_, .inr ⟨hperm,
      h.removed_lt i (hperm.mem_iff.mpr (mem_cons_self ..))⟩⟩
    all_goals rw [hpop]
    · rfl
    · rfl
    · exact hadded
    · exact hmoved

def registered (s : InputBatch ι ε γ) (i : Nat) (r : Request ι ε γ) : BatchUpdateBuilder ι ε γ :=
  match r.params with
  | .sampling _ => { s.builder.popRemoved.2 with
      added := s.builder.popRemoved.2.added ++ [(i, r)] }
  | .pooling _ => s.builder.popRemoved.2

omit [DecidableEq ι] in
theorem registered_eq (s : InputBatch ι ε γ) (i : Nat) (r : Request ι ε γ) :
    (s.registered i r).removed = s.builder.popRemoved.2.removed ∧
      (s.registered i r).isRemovedSorted = s.builder.popRemoved.2.isRemovedSorted ∧
      (s.registered i r).moved = s.builder.popRemoved.2.moved := by
  unfold registered
  split <;> exact ⟨rfl, rfl, rfl⟩

def joined (s : InputBatch ι ε γ) (i : Nat) (r : Request ι ε γ) : InputBatch ι ε γ :=
  (place { s with builder := s.registered i r } i r).setRow i r

theorem addRequest_eq (hn : NextRow s i rest) (hcap : i < s.config.maxNumReqs) (r : Request ι ε γ) :
    s.addRequest r = .ok (s.joined i r) := by
  have hassert : pyAssert (i < s.config.maxNumReqs) "" = .ok () := (pyAssert_eq_ok ..).mpr hcap
  unfold addRequest registerAddRequest
  simp only [hn.index, hassert]
  rfl

section
variable (s : InputBatch ι ε γ) (i : Nat) (r : Request ι ε γ)

theorem place_reqIds :
    (s.place i r).reqIds = if i = s.reqIds.length then s.reqIds ++ [some r.reqId]
      else s.reqIds.set i (some r.reqId) := by
  unfold place
  split_ifs <;> rfl

theorem place_rest :
    (s.place i r).reqIdToIndex = set s.reqIdToIndex r.reqId i ∧
      (s.place i r).occupant = update s.occupant i (some r) ∧
      (s.place i r).builder = s.builder ∧ (s.place i r).config = s.config := by
  unfold place
  split_ifs <;> exact ⟨rfl, rfl, rfl, rfl⟩

theorem length_place :
    (s.place i r).reqIds.length =
      if i = s.reqIds.length then s.reqIds.length + 1 else s.reqIds.length := by
  rw [place_reqIds]
  split_ifs <;> simp

end

theorem getElem?_place (hi : i ≤ s.reqIds.length) (r : Request ι ε γ) (j : Nat) :
    (s.place i r).reqIds[j]? = if j = i then some (some r.reqId) else s.reqIds[j]? := by
  rw [place_reqIds]
  by_cases hlen : i = s.reqIds.length
  · rw [if_pos hlen]
    by_cases hj : j = i
    · rw [if_pos hj, hj, hlen, getElem?_concat_length]
    rw [getElem?_append]
    split_ifs with hlt
    · rfl
    · rw [getElem?_eq_none (by simp; omega), getElem?_eq_none (by omega)]
  · rw [if_neg hlen]
    by_cases hj : j = i
    · rw [if_pos hj, hj, getElem?_set_self (by omega)]
    · rw [if_neg hj, getElem?_set_ne (Ne.symm hj)]

theorem Indexed.place (h : Indexed s) (hid : get? s.reqIdToIndex r.reqId = none)
    (hle : i ≤ s.reqIds.length) (hrow : s.occupant i = none) (hcap : i < s.config.maxNumReqs) :
    Indexed (s.place i r) := by
  obtain ⟨hdict, hocc, -, hconfig⟩ := s.place_rest i r
  refine ⟨fun j hj => ?_, fun j hj => ?_, fun id j => ?_, ?_, ?_⟩
  · rw [getElem?_place hle, hocc]
    by_cases hji : j = i
    · rw [if_pos hji, hji, update_self]
      rfl
    rw [if_neg hji, update_of_ne hji]
    refine h.ids j ?_
    rw [length_place] at hj
    split_ifs at hj <;> omega
  · rw [length_place] at hj
    rw [hocc, update_of_ne (by split_ifs at hj <;> omega)]
    refine h.beyond j ?_
    split_ifs at hj <;> omega
  · rw [hdict, get?_set, hocc]
    by_cases hji : j = i
    · rw [hji, update_self]
      by_cases hr : id = r.reqId
      · rw [if_pos hr]
        exact ⟨fun _ => ⟨r, rfl, hr.symm⟩, fun _ => rfl⟩
      rw [if_neg hr, h.index id i, hrow]
      constructor
      · rintro ⟨r', hr', -⟩
        cases hr'
      · rintro ⟨r', hr', hr''⟩
        cases hr'
        exact absurd hr''.symm hr
    rw [update_of_ne hji]
    by_cases hr : id = r.reqId
    · rw [if_pos hr]
      constructor
      · intro heq
        exact absurd (Option.some.inj heq).symm hji
      rintro ⟨r', hr', hr''⟩
      have hsome := (h.index r.reqId j).mpr ⟨r', hr', hr''.trans hr⟩
      rw [hid] at hsome
      cases hsome
    · rw [if_neg hr, h.index id j]
  · rw [hdict]
    exact nodup_keys_set h.keys _ _
  · have hfits := h.fits
    rw [length_place, hconfig]
    split_ifs <;> omega

theorem length_set_none (h : get? d id = none) (i : Nat) : (set d id i).length = d.length + 1 := by
  rw [set_of_notMem (get?_eq_none.mp h)]
  simp

theorem Open.occupant_nextRow (h : Open s) (hn : NextRow s i rest) :
    i ≤ s.reqIds.length ∧ s.occupant i = none ∧ i ∉ rest ∧
      rest.Nodup ∧ ∀ j, j ∈ s.builder.removed ↔ (j = i ∧ i < s.reqIds.length) ∨ j ∈ rest := by
  rcases hn.row with ⟨hi, hnil, hrest⟩ | ⟨hperm, hlt⟩
  · refine ⟨hi.le, h.beyond i hi.ge, by simp [hrest], by simp [hrest], fun j => ?_⟩
    rw [hnil, hrest, hi]
    simp
  have hmem : i ∈ s.builder.removed := hperm.mem_iff.mpr (mem_cons_self ..)
  have hnodup := hperm.nodup_iff.mp h.nodup
  rw [nodup_cons] at hnodup
  refine ⟨hlt.le, (h.empty i hlt).mpr hmem, hnodup.1, hnodup.2, fun j => ?_⟩
  rw [hperm.mem_iff]
  simp [hlt]

theorem Open.add (h : Open s) (hid : get? s.reqIdToIndex r.reqId = none)
    (hn : NextRow s i rest) (hcap : i < s.config.maxNumReqs) : Open (s.joined i r) := by
  obtain ⟨hle, hnone, hnot, hnodup, hmem⟩ := h.occupant_nextRow hn
  set s1 : InputBatch ι ε γ := { s with builder := s.registered i r } with hs1
  have hind : Indexed s1 := ⟨h.ids, h.beyond, h.index, h.keys, h.fits⟩
  obtain ⟨hsame, hbuilder⟩ : SameRows (s1.place i r) (s.joined i r) ∧
      (s.joined i r).builder = (s1.place i r).builder := (s1.place i r).setRow_same i r
  obtain ⟨hdict, hocc, hb, -⟩ := s1.place_rest i r
  obtain ⟨hreg1, hreg2, -⟩ := s.registered_eq i r
  have hremoved : (s.joined i r).builder.removed = rest := by
    rw [hbuilder, hb]
    exact hreg1.trans hn.removed
  have hlen : (s.joined i r).reqIds.length =
      if i = s.reqIds.length then s.reqIds.length + 1 else s.reqIds.length := by
    rw [hsame.reqIds]
    exact s1.length_place i r
  refine ⟨(hind.place hid hle hnone hcap).of_same hsame, ?_, ?_, ?_, ?_, ?_⟩
  · rw [hremoved]
    exact hnodup
  · intro j hj
    rw [hlen] at hj
    rw [hremoved, hsame.occupant, hocc]
    by_cases hji : j = i
    · rw [hji]
      simp [hnot]
    · rw [update_of_ne hji, h.empty j (by split_ifs at hj <;> omega), hmem j]
      simp [hji]
  · intro j hj
    rw [hremoved] at hj
    have := h.removed_lt j ((hmem j).mpr (.inr hj))
    rw [hlen]
    split_ifs <;> omega
  · have hcount := h.count
    have hnum : (s.joined i r).numReqs = s.numReqs + 1 := by
      rw [numReqs, hsame.reqIdToIndex, hdict]
      exact length_set_none hid i
    rw [hremoved, hlen]
    rcases hn.row with ⟨hi, hnil, hrest⟩ | ⟨hperm, hlt⟩
    · rw [if_pos hi, hrest, length_nil]
      rw [hnil, length_nil] at hcount
      omega
    have := hperm.length_eq
    rw [length_cons] at this
    rw [if_neg (by omega)]
    omega
  · rw [hremoved, hbuilder, hb]
    intro hsort
    exact hn.sorted (hreg2.symm.trans hsort)

/-! Exchanges of two rows -/

omit [DecidableEq ι] in
theorem getElem?_swapList {α : Type} {l : List α} (h1 : i1 < l.length) (h2 : i2 < l.length)
    (default : α) (j : Nat) : (swapList l i1 i2 default)[j]? = l[Equiv.swap i1 i2 j]? := by
  unfold swapList
  by_cases hj2 : j = i2
  · rw [hj2, getElem?_set_self (by simpa using h2), Equiv.swap_apply_right, getElem?_eq_getElem h1]
    rfl
  rw [getElem?_set_ne (Ne.symm hj2)]
  by_cases hj1 : j = i1
  · rw [hj1, getElem?_set_self h1, Equiv.swap_apply_left, getElem?_eq_getElem h2]
    rfl
  · rw [getElem?_set_ne (Ne.symm hj1), Equiv.swap_apply_of_ne_of_ne hj1 hj2]

omit [DecidableEq ι] in
theorem length_swapList {α : Type} (l : List α) (i1 i2 : Nat) (default : α) :
    (swapList l i1 i2 default).length = l.length := by
  simp [swapList]

def swapped (s : InputBatch ι ε γ) (a b : Request ι ε γ) (i1 i2 : Nat) : InputBatch ι ε γ :=
  (s.exchange a.reqId b.reqId i1 i2 i1 i2).swapColumns i1 i2

theorem swapped_same (s : InputBatch ι ε γ) (a b : Request ι ε γ) (i1 i2 : Nat) :
    SameRows (s.exchange a.reqId b.reqId i1 i2 i1 i2) (s.swapped a b i1 i2) ∧
      (s.swapped a b i1 i2).builder = { s.builder with
        moved := if s.config.isPoolingModel then s.builder.moved
          else s.builder.moved ++ [(i1, i2, .swap)] } := by
  obtain ⟨hsame, hbuilder⟩ := (s.exchange a.reqId b.reqId i1 i2 i1 i2).swapColumns_same i1 i2
  refine ⟨hsame, hbuilder.trans ?_⟩
  by_cases hp : s.config.isPoolingModel = true
  · rw [if_pos hp]
    exact if_pos hp
  · rw [if_neg hp]
    exact if_neg hp

theorem swapStates_eq (h : Indexed s) (ha : s.occupant i1 = some a) (hb : s.occupant i2 = some b) :
    s.swapStates i1 i2 = .ok (s.swapped a b i1 i2) := by
  have h1 : s.reqIds[i1]? = some (some a.reqId) := by
    rw [h.ids i1 (h.lt ha), ha]
    rfl
  have h2 : s.reqIds[i2]? = some (some b.reqId) := by
    rw [h.ids i2 (h.lt hb), hb]
    rfl
  rw [swapStates, h1, h2]
  simp only [(h.index a.reqId i1).mpr ⟨a, ha, rfl⟩, (h.index b.reqId i2).mpr ⟨b, hb, rfl⟩]
  rfl

theorem get?_exchange {a b : ι}
    (hunique : ∀ x y i, get? d x = some i → get? d y = some i → x = y)
    (ha : get? d a = some i1) (hb : get? d b = some i2) (id : ι) (j : Nat) :
    get? (set (set d a i2) b i1) id = some j ↔ get? d id = some (Equiv.swap i1 i2 j) := by
  rw [get?_set, get?_set]
  by_cases hidb : id = b
  · rw [if_pos hidb, hidb, hb, Option.some.injEq, Option.some.injEq, eq_comm (a := i2),
      Equiv.swap_apply_eq_iff, Equiv.swap_apply_right, eq_comm]
  rw [if_neg hidb]
  by_cases hida : id = a
  · rw [if_pos hida, hida, ha, Option.some.injEq, Option.some.injEq, eq_comm (a := i1),
      Equiv.swap_apply_eq_iff, Equiv.swap_apply_left, eq_comm]
  rw [if_neg hida]
  cases hk : get? d id with
  | none => simp
  | some k =>
    have h1 : k ≠ i1 := by
      rintro rfl
      exact hida (hunique id a _ hk ha)
    have h2 : k ≠ i2 := by
      rintro rfl
      exact hidb (hunique id b _ hk hb)
    rw [Option.some.injEq, Option.some.injEq, eq_comm (a := k) (b := Equiv.swap i1 i2 j),
      Equiv.swap_apply_eq_iff, Equiv.swap_apply_of_ne_of_ne h1 h2, eq_comm]

theorem Indexed.exchange (h : Indexed s) (ha : s.occupant i1 = some a)
    (hb : s.occupant i2 = some b) : Indexed (s.exchange a.reqId b.reqId i1 i2 i1 i2) := by
  have h1 := h.lt ha
  have h2 := h.lt hb
  have hlen : (s.exchange a.reqId b.reqId i1 i2 i1 i2).reqIds.length = s.reqIds.length :=
    length_swapList ..
  have hlt (j : Nat) : Equiv.swap i1 i2 j < s.reqIds.length ↔ j < s.reqIds.length := by
    by_cases hj1 : j = i1
    · rw [hj1, Equiv.swap_apply_left]
      omega
    by_cases hj2 : j = i2
    · rw [hj2, Equiv.swap_apply_right]
      omega
    · rw [Equiv.swap_apply_of_ne_of_ne hj1 hj2]
  refine ⟨fun j hj => ?_, fun j hj => ?_, fun id j => ?_, ?_, hlen.trans_le h.fits⟩
  · rw [hlen] at hj
    simp only [InputBatch.exchange]
    rw [getElem?_swapList h1 h2]
    exact h.ids _ ((hlt j).mpr hj)
  · refine h.beyond _ ?_
    have := hlt j
    omega
  · simp only [InputBatch.exchange]
    rw [get?_exchange _ ((h.index a.reqId i1).mpr ⟨a, ha, rfl⟩)
      ((h.index b.reqId i2).mpr ⟨b, hb, rfl⟩)]
    · exact h.index id _
    intro x y i hx hy
    obtain ⟨r, hr, hrx⟩ := (h.index x i).mp hx
    obtain ⟨r', hr', hry⟩ := (h.index y i).mp hy
    rw [hr] at hr'
    cases hr'
    exact hrx.symm.trans hry
  · exact nodup_keys_set (nodup_keys_set h.keys _ _) _ _

/-! The moves of `condense` -/

theorem skipEmpty_notMem (removed : List Nat) (last : Nat) :
    skipEmpty removed last ∉ removed ∨ skipEmpty removed last = 0 := by
  induction last with
  | zero => exact .inr rfl
  | succ last ih =>
    rw [skipEmpty]
    split_ifs with h
    · exact ih
    · exact .inl h

/-- The rows between two moves: the empty ones up to row `last` are still to be filled. -/
structure Condensing (s : InputBatch ι ε γ) (last : Nat) (removed : List Nat) : Prop
    extends Indexed s where
  nodup : removed.Nodup
  sorted : removed.Pairwise (· ≤ ·)
  last_lt : last < s.reqIds.length
  empty : ∀ i ≤ last, s.occupant i = none ↔ i ∈ removed
  above : ∀ i, last < i → s.occupant i = none
  count : ((Finset.range (last + 1)).filter (fun i => i ∉ removed)).card = s.numReqs
  pos : 0 < s.numReqs

section
variable (h : Condensing s last removed)
include h

theorem Condensing.skip :
    Condensing s (skipEmpty removed last) removed := by
  induction last with
  | zero => exact h
  | succ last ih =>
    rw [skipEmpty]
    split_ifs with hmem
    · have hlt := h.last_lt
      refine ih ⟨h.toIndexed, h.nodup, h.sorted, by omega, fun i hi => h.empty i (by omega),
        fun i hi => ?_, ?_, h.pos⟩
      · by_cases hi' : i = last + 1
        · rw [hi']
          exact (h.empty _ le_rfl).mpr hmem
        · exact h.above i (by omega)
      · have hcount := h.count
        rw [Finset.range_add_one, Finset.filter_insert, if_neg (by simpa using hmem)] at hcount
        exact hcount
    · exact h

theorem Condensing.skip_notMem :
    skipEmpty removed last ∉ removed := by
  rcases skipEmpty_notMem removed last with hnot | hzero
  · exact hnot
  -- row 0 is not empty, since some request is left
  intro hmem
  have hcount := h.skip.count
  rw [hzero] at hcount hmem
  have hpos := h.pos
  simp [Finset.filter_singleton, hmem] at hcount
  omega

theorem Condensing.done (hno : ∀ i ∈ removed, last < i) :
    s.numReqs = last + 1 ∧ ∀ i, s.occupant i ≠ none ↔ i < s.numReqs := by
  have hall : (Finset.range (last + 1)).filter (fun i => i ∉ removed) =
      Finset.range (last + 1) := by
    refine Finset.filter_true_of_mem fun i hi hmem => ?_
    have := hno i hmem
    rw [Finset.mem_range] at hi
    omega
  have hcount := h.count
  rw [hall, Finset.card_range] at hcount
  refine ⟨hcount.symm, fun i => ?_⟩
  by_cases hi : i ≤ last
  · rw [ne_eq, h.empty i hi]
    exact ⟨fun _ => by omega, fun _ hmem => by have := hno i hmem; omega⟩
  · rw [h.above i (by omega)]
    exact ⟨fun hne => absurd rfl hne, fun hlt => by omega⟩

end

theorem Indexed.relocate (h : Indexed s) {dst : Nat} (hr : s.occupant last = some r)
    (hdst : s.occupant dst = none) (hlt : dst < last) : Indexed (s.relocate r.reqId last dst) := by
  have hlast := h.lt hr
  have hlen : (s.relocate r.reqId last dst).reqIds.length = s.reqIds.length := by
    simp [InputBatch.relocate]
  have hocc (j : Nat) : (s.relocate r.reqId last dst).occupant j =
      if j = last then none else if j = dst then some r else s.occupant j := by
    simp only [InputBatch.relocate]
    split_ifs with h1 h2
    · rw [h1, update_self]
    · rw [update_of_ne h1, h2, copyRow_dst, hr]
    · rw [update_of_ne h1, copyRow_ne _ _ h2]
  refine ⟨fun j hj => ?_, fun j hj => ?_, fun id j => ?_, nodup_keys_set h.keys _ _,
    hlen.trans_le h.fits⟩
  · rw [hlen] at hj
    rw [hocc]
    simp only [InputBatch.relocate]
    split_ifs with h1 h2
    · rw [h1, getElem?_set_self (by simpa using hlast)]
      rfl
    · rw [getElem?_set_ne (Ne.symm h1), h2, getElem?_set_self (by omega)]
      rfl
    · rw [getElem?_set_ne (Ne.symm h1), getElem?_set_ne (Ne.symm h2)]
      exact h.ids j hj
  · rw [hlen] at hj
    rw [hocc, if_neg (by omega), if_neg (by omega)]
    exact h.beyond j hj
  · rw [hocc]
    simp only [InputBatch.relocate]
    rw [get?_set]
    by_cases hid : id = r.reqId
    · rw [if_pos hid]
      constructor
      · intro hj
        have hj' := (Option.some.inj hj).symm
        rw [if_neg (by omega), if_pos hj']
        exact ⟨r, rfl, hid.symm⟩
      rintro ⟨r', hr', hid'⟩
      split_ifs at hr' with h1 h2
      · rw [h2]
      · exact absurd (h.unique hr' hr (hid'.trans hid)) h1
    rw [if_neg hid, h.index id j]
    constructor
    · rintro ⟨r', hr', hid'⟩
      have h1 : j ≠ last := by
        rintro rfl
        rw [hr] at hr'
        cases hr'
        exact hid hid'.symm
      have h2 : j ≠ dst := by
        rintro rfl
        rw [hdst] at hr'
        cases hr'
      rw [if_neg h1, if_neg h2]
      exact ⟨r', hr', hid'⟩
    · rintro ⟨r', hr', hid'⟩
      split_ifs at hr' with h1 h2
      · cases hr'
        exact absurd hid'.symm hid
      · exact ⟨r', hr', hid'⟩

def shifted (s : InputBatch ι ε γ) (r : Request ι ε γ) (last dst : Nat) (removed : List Nat) :
    InputBatch ι ε γ :=
  (relocate { s with builder := { s.builder with removed := removed } } r.reqId last
    dst).moveColumns last dst

theorem shifted_same (s : InputBatch ι ε γ) (r : Request ι ε γ) (last dst : Nat)
    (removed : List Nat) :
    SameRows (s.relocate r.reqId last dst) (s.shifted r last dst removed) ∧
      (s.shifted r last dst removed).builder = { s.builder with
        removed := removed
        moved := if s.config.isPoolingModel then s.builder.moved
          else s.builder.moved ++ [(last, dst, .unidirectional)] } := by
  obtain ⟨⟨h1, h2, h3, h4⟩, hbuilder⟩ := moveColumns_same (relocate { s with
    builder := { s.builder with removed := removed } } r.reqId last dst) last dst
  refine ⟨⟨h1, h2, h3, h4⟩, hbuilder.trans ?_⟩
  by_cases hp : s.config.isPoolingModel = true
  · rw [if_pos hp]
    exact if_pos hp
  · rw [if_neg hp]
    exact if_neg hp

theorem Condensing.move {dst : Nat} (h : Condensing s last (dst :: removed))
    (hlast : last ∉ dst :: removed) (hlt : dst < last) :
    ∃ r, s.occupant last = some r ∧
      moveRequest { s with builder := { s.builder with removed := removed } } last dst =
        .ok (s.shifted r last dst removed) ∧
      Condensing (s.shifted r last dst removed) (last - 1) removed ∧
      (s.shifted r last dst removed).numReqs = s.numReqs ∧
      (s.shifted r last dst removed).builder.removed = removed := by
  obtain ⟨r, hr⟩ : ∃ r, s.occupant last = some r :=
    Option.ne_none_iff_exists'.mp fun hnone => hlast ((h.empty last le_rfl).mp hnone)
  have hdst : s.occupant dst = none := (h.empty dst hlt.le).mpr (mem_cons_self ..)
  have hids : s.reqIds[last]? = some (some r.reqId) := by
    rw [h.ids last h.last_lt, hr]
    rfl
  obtain ⟨hsame, hbuilder⟩ := s.shifted_same r last dst removed
  have hnum : (s.shifted r last dst removed).numReqs = s.numReqs := by
    rw [numReqs, hsame.reqIdToIndex]
    have hkey : r.reqId ∈ s.reqIdToIndex.map Prod.fst :=
      mem_keys_of_get? ((h.index r.reqId last).mpr ⟨r, hr, rfl⟩)
    have := keys_set s.reqIdToIndex r.reqId dst
    rw [if_pos hkey] at this
    simpa [numReqs, relocate] using congrArg length this
  have hnodup := nodup_cons.mp h.nodup
  refine ⟨r, hr, by rw [moveRequest, hids]; rfl, ⟨?_, hnodup.2, h.sorted.of_cons, ?_, ?_, ?_, ?_,
    ?_⟩, hnum, ?_⟩
  · exact (h.toIndexed.relocate hr hdst hlt).of_same hsame
  · rw [hsame.reqIds]
    have := h.last_lt
    simp only [relocate, length_set]
    omega
  · intro i hi
    rw [hsame.occupant]
    simp only [relocate]
    rw [update_of_ne (by omega)]
    by_cases hid : i = dst
    · rw [hid, copyRow_dst, hr]
      simp [hnodup.1]
    · rw [copyRow_ne _ _ hid, h.empty i (by omega)]
      simp [hid]
  · intro i hi
    rw [hsame.occupant]
    simp only [relocate]
    by_cases hil : i = last
    · rw [hil, update_self]
    · rw [update_of_ne hil, copyRow_ne _ _ (by omega)]
      exact h.above i (by omega)
  · rw [hnum, ← h.count]
    have hlast' : last - 1 + 1 = last := by omega
    rw [hlast', Finset.range_add_one, Finset.filter_insert, if_pos hlast,
      Finset.card_insert_of_notMem (by simp)]
    have hsplit : (Finset.range last).filter (fun i => i ∉ removed) =
        insert dst ((Finset.range last).filter (fun i => i ∉ dst :: removed)) := by
      ext i
      by_cases hid : i = dst
      · simp [hid, hlt, hnodup.1]
      · simp [hid]
    rw [hsplit, Finset.card_insert_of_notMem (by simp)]
  · rw [hnum]
    exact h.pos
  · rw [hbuilder]

end InputBatch
end TailBlend.Batch
