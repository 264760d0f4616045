import Mathlib.Data.List.Perm.Basic

/-! Python's `heapq` on lists, over an arbitrary comparison. Every operation only moves
elements, whatever the comparison answers. -/
namespace TailBlend.Heap
open List
variable {β : Type*}

def swap (l : List β) (i j : Nat) : List β :=
  match l[i]?, l[j]? with
  | some a, some b => (l.set i b).set j a
  | _, _ => l

theorem swap_perm (l : List β) (i j : Nat) : (swap l i j).Perm l := by
  unfold swap
  by_cases hi : i < l.length
  · by_cases hj : j < l.length
    · rw [getElem?_eq_getElem hi, getElem?_eq_getElem hj]
      exact set_set_perm hi hj
    · rw [getElem?_eq_getElem hi, getElem?_eq_none (Nat.le_of_not_lt hj)]
  · rw [getElem?_eq_none (Nat.le_of_not_lt hi)]

variable (lt : β → β → Bool)

/-- `_siftdown`: move the item at `pos` towards `start` while it is below its parent.
The item is swapped upwards where the source moves a hole and writes the item last. -/
def siftdown (start : Nat) : Nat → List β → Nat → List β
  | 0, l, _ => l
  | fuel + 1, l, pos =>
    if start < pos then
      let parent := (pos - 1) / 2
      match l[pos]?, l[parent]? with
      | some x, some y => if lt x y then siftdown start fuel (swap l pos parent) parent else l
      | _, _ => l
    else l

theorem siftdown_perm (start fuel : Nat) (l : List β) (pos : Nat) :
    (siftdown lt start fuel l pos).Perm l := by
  induction fuel generalizing l pos with
  | zero => exact .refl _
  | succ fuel ih =>
    simp only [siftdown]
    split
    · split
      · split
        · exact (ih _ _).trans (swap_perm l _ _)
        · exact .refl _
      · exact .refl _
    · exact .refl _

section
variable (l : List β)

def smallerChild (pos : Nat) : Nat :=
  let child := 2 * pos + 1
  match l[child]?, l[child + 1]? with
  | some x, some y => if lt x y then child else child + 1
  | _, _ => child

/-- `_siftup`: bubble the smaller child up to a leaf, then `_siftdown` from there. -/
def siftup (start : Nat) : Nat → List β → Nat → List β
  | 0, l, pos => siftdown lt start l.length l pos
  | fuel + 1, l, pos =>
    if 2 * pos + 1 < l.length then
      let child := smallerChild lt l pos
      siftup start fuel (swap l pos child) child
    else siftdown lt start l.length l pos

theorem siftup_perm (start fuel : Nat) (l : List β) (pos : Nat) :
    (siftup lt start fuel l pos).Perm l := by
  induction fuel generalizing l pos with
  | zero => exact siftdown_perm lt start _ l pos
  | succ fuel ih =>
    simp only [siftup]
    split
    · exact (ih _ _).trans (swap_perm l _ _)
    · exact siftdown_perm lt start _ l pos

def heappush (x : β) : List β := siftdown lt 0 (l.length + 1) (l ++ [x]) l.length

theorem heappush_perm (x : β) : (heappush lt l x).Perm (x :: l) :=
  (siftdown_perm lt 0 _ _ _).trans (perm_append_singleton x l)

def heappop : Option (β × List β) :=
  match l with
  | [] => none
  | x :: xs =>
    match xs.getLast? with
    | none => some (x, [])
    | some y => some (x, siftup lt 0 xs.length (y :: xs.dropLast) 0)

theorem heappop_perm {l l' : List β} {x : β} (h : heappop lt l = some (x, l')) :
    l.head? = some x ∧ (x :: l').Perm l := by
  cases l with
  | nil => simp [heappop] at h
  | cons y ys =>
    simp only [heappop] at h
    split at h
    · rename_i hl
      obtain ⟨rfl, rfl⟩ := by simpa using h
      rw [getLast?_eq_none_iff] at hl
      subst hl
      exact ⟨rfl, .refl _⟩
    rename_i z hz
    obtain ⟨rfl, rfl⟩ := by simpa using h
    have hys : ys.dropLast ++ [z] = ys := dropLast_append_getLast? z hz
    have hp : (z :: ys.dropLast).Perm ys := by
      conv_rhs => rw [← hys]
      exact (perm_append_singleton z _).symm
    exact ⟨rfl, ((siftup_perm lt 0 _ _ _).trans hp).cons y⟩

/-- `heapify`: `_siftup` at every inner node, the last one first. -/
def heapify : List β :=
  (List.range (l.length / 2)).reverse.foldl (fun l i => siftup lt i l.length l i) l

theorem heapify_perm : (heapify lt l).Perm l := by
  have hfold (is : List Nat) (k : List β) :
      (is.foldl (fun l i => siftup lt i l.length l i) k).Perm k := by
    induction is generalizing k with
    | nil => exact .refl _
    | cons i is ih => exact (ih _).trans (siftup_perm lt i _ k i)
  exact hfold _ l

def drain : Nat → List β → List β
  | 0, _ => []
  | fuel + 1, l =>
    match heappop lt l with
    | none => []
    | some (x, l') => x :: drain fuel l'

theorem drain_perm : (drain lt l.length l).Perm l := by
  generalize hn : l.length = n
  induction n generalizing l with
  | zero =>
    rw [length_eq_zero_iff] at hn
    subst hn
    exact .refl _
  | succ n ih =>
    simp only [drain]
    cases hp : heappop lt l with
    | none =>
      cases l with
      | nil => simp at hn
      | cons x xs =>
        simp only [heappop] at hp
        split at hp <;> simp at hp
    | some res =>
      obtain ⟨x, l'⟩ := res
      have hperm := (heappop_perm lt hp).2
      have hlen : l'.length = n := by
        have := hperm.length_eq
        simp only [length_cons] at this
        omega
      exact ((ih l' hlen).cons x).trans hperm

end

end TailBlend.Heap
