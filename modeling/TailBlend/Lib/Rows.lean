import Mathlib.Logic.Equiv.Basic
import Mathlib.Tactic.Common

/-! Arrays as functions of a place: slices, and rows that are copied, moved and exchanged. -/
namespace TailBlend.Rows
open Function List
variable {α : Type*}

/-- `f[start : start + len(l)] = l`. -/
def writeSlice (f : Nat → α) (start : Nat) (l : List α) : Nat → α := fun p =>
  if start ≤ p then (l[p - start]?).getD (f p) else f p

/-- `f[: n] = g[: n]`. -/
def copyFront (f g : Nat → α) (n : Nat) : Nat → α := fun p => if p < n then g p else f p

def copyRow (f : Nat → α) (src dst : Nat) : Nat → α := Function.update f dst (f src)

def swapRows (f : Nat → α) (i j : Nat) : Nat → α := fun k => f (Equiv.swap i j k)

/-- The row of a dict is moved: `v = f.pop(src, None)`, and `f[dst] = v` if there is one. -/
def moveEntry (f : Nat → Option α) (src dst : Nat) : Nat → Option α :=
  if (f src).isSome then Function.update (Function.update f src none) dst (f src)
  else Function.update f src none

@[simp]
theorem copyRow_dst (f : Nat → α) (src dst : Nat) : copyRow f src dst dst = f src := update_self ..

variable {dst i p start src : Nat} {f : Nat → Option α} {ws : List (Nat × α)}

theorem copyRow_ne (f : Nat → α) (src : Nat) (h : i ≠ dst) : copyRow f src dst i = f i :=
  update_of_ne h ..

theorem swapRows_eq_update (f : Nat → α) (i j : Nat) :
    swapRows f i j = update (update f j (f i)) i (f j) := by
  funext k
  by_cases hi : k = i
  · rw [swapRows, hi, Equiv.swap_apply_left, update_self]
  by_cases hj : k = j
  · rw [swapRows, hj, Equiv.swap_apply_right, update_of_ne (hj ▸ hi), update_self]
  · rw [swapRows, Equiv.swap_apply_of_ne_of_ne hi hj, update_of_ne hi, update_of_ne hj]

theorem swapRows_eq_self {f : Nat → α} {j : Nat} (h : f i = f j) : swapRows f i j = f := by
  rw [swapRows_eq_update, h, update_eq_self, ← h, update_eq_self]

theorem copyFront_lt (f g : Nat → α) {n : Nat} (h : p < n) : copyFront f g n p = g p := if_pos h

theorem writeSlice_lt (f : Nat → α) (l : List α) (h : p < start) : writeSlice f start l p = f p :=
  if_neg (by omega)

theorem writeSlice_get (f : Nat → α) (l : List α) (h : start ≤ p) :
    writeSlice f start l p = (l[p - start]?).getD (f p) :=
  if_pos h

theorem writeSlice_ge (f : Nat → α) (l : List α) (h : start + l.length ≤ p) :
    writeSlice f start l p = f p := by
  rw [writeSlice_get f l (by omega), getElem?_eq_none (by omega), Option.getD_none]

@[simp]
theorem writeSlice_nil (f : Nat → α) (start : Nat) : writeSlice f start [] = f := by
  funext p
  simp [writeSlice]

/-- Inside a slice the old content does not matter. -/
theorem writeSlice_congr (f g : Nat → α) (l : List α) (h1 : start ≤ p) (h2 : p < start + l.length) :
    writeSlice f start l p = writeSlice g start l p := by
  rw [writeSlice_get f l h1, writeSlice_get g l h1, getElem?_eq_getElem (by omega)]
  rfl

theorem moveEntry_dst (hne : src ≠ dst) (h : f dst = none ∨ (f src).isSome) :
    moveEntry f src dst dst = f src := by
  unfold moveEntry
  split_ifs with hs
  · exact update_self ..
  · rw [update_of_ne hne.symm]
    rw [Option.not_isSome_iff_eq_none.mp hs]
    exact h.resolve_right hs

theorem moveEntry_src (hne : src ≠ dst) : moveEntry f src dst src = none := by
  unfold moveEntry
  split_ifs
  · rw [update_of_ne hne, update_self]
  · exact update_self ..

theorem moveEntry_ne (h1 : i ≠ src) (h2 : i ≠ dst) : moveEntry f src dst i = f i := by
  unfold moveEntry
  split_ifs
  · rw [update_of_ne h2, update_of_ne h1]
  · exact update_of_ne h1 ..

/-- The writes `f[i] = v`, one after the other. -/
def writeAll (f : Nat → α) (ws : List (Nat × α)) : Nat → α :=
  ws.foldl (fun f w => Function.update f w.1 w.2) f

theorem writeAll_of_ne (f : Nat → α) (h : ∀ w ∈ ws, w.1 ≠ i) : writeAll f ws i = f i := by
  induction ws generalizing f with
  | nil => rfl
  | cons w ws ih =>
    have hw : w.1 ≠ i := h w mem_cons_self
    calc
      writeAll f (w :: ws) i = update f w.1 w.2 i := ih _ fun w' hw' => h w' (mem_cons_of_mem _ hw')
      _ = f i := update_of_ne hw.symm ..

/-- What is written to a place stays there if everything written to it is the same. -/
theorem writeAll_of_mem (f : Nat → α) {v : α} (hmem : (i, v) ∈ ws)
    (hsame : ∀ w ∈ ws, w.1 = i → w.2 = v) : writeAll f ws i = v := by
  induction ws generalizing f with
  | nil => cases hmem
  | cons w ws ih =>
    have hrest : ∀ w' ∈ ws, w'.1 = i → w'.2 = v := fun w' hw' => hsame w' (mem_cons_of_mem _ hw')
    by_cases hin : (i, v) ∈ ws
    · exact ih _ hin hrest
    have hw : w = (i, v) := by
      cases hmem with
      | head => rfl
      | tail _ h => exact absurd h hin
    -- a later write to the place would be the same pair
    have hne : ∀ w' ∈ ws, w'.1 ≠ i := by
      intro w' hw' he
      have hv := hrest w' hw' he
      exact hin ((Prod.ext he hv : w' = (i, v)) ▸ hw')
    calc
      writeAll f (w :: ws) i = update f w.1 w.2 i := writeAll_of_ne _ hne
      _ = v := by rw [hw, update_self]

theorem update_eq_writeSlice (f : Nat → α) (i : Nat) (v : α) :
    update f i v = writeSlice f i [v] := by
  funext p
  by_cases hp : p = i
  · rw [hp, update_self, writeSlice_get f [v] (Nat.le_refl i), Nat.sub_self]
    rfl
  rw [update_of_ne hp]
  by_cases hlt : p < i
  · exact (writeSlice_lt f [v] hlt).symm
  · rw [writeSlice_get f [v] (by omega), getElem?_eq_none (by simp; omega)]
    rfl

theorem writeSlice_append (f : Nat → α) (start : Nat) (l l' : List α) :
    writeSlice (writeSlice f start l) (start + l.length) l' = writeSlice f start (l ++ l') := by
  funext p
  by_cases hlt : p < start
  · rw [writeSlice_lt _ _ (by omega), writeSlice_lt _ _ hlt, writeSlice_lt _ _ hlt]
  rw [writeSlice_get f (l ++ l') (by omega)]
  by_cases hin : p < start + l.length
  · rw [writeSlice_lt _ l' hin, writeSlice_get f l (by omega), getElem?_append_left (by omega)]
  · rw [writeSlice_get _ l' (by omega), writeSlice_get f l (by omega),
      getElem?_append_right (by omega), getElem?_eq_none (i := p - start) (by omega),
      Option.getD_none, Nat.sub_sub]

theorem range_map_writeSlice (f : Nat → α) (l : List α) :
    (List.range l.length).map (writeSlice f 0 l) = l := by
  apply ext_getElem (by simp)
  intro p hp hp'
  rw [getElem_map, getElem_range, writeSlice_get f l (Nat.zero_le _), Nat.sub_zero,
    getElem?_eq_getElem hp']
  rfl

end TailBlend.Rows
