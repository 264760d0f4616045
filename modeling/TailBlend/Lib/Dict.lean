import Mathlib.Data.List.AList
import Mathlib.Algebra.BigOperators.Group.List.Basic
import Mathlib.Algebra.GroupWithZero.Nat

/-! Dictionaries whose key order is never read: Mathlib's association lists at a
constant value type, with a default reading and the sum of a weight over the values. -/
namespace TailBlend
open List

structure Dict (α β : Type*) where
  toAList : AList (fun _ : α => β)

namespace Dict
variable {α β : Type*} [DecidableEq α]

def empty : Dict α β := ⟨∅⟩

def get? (d : Dict α β) (a : α) : Option β := d.toAList.lookup a

def contains (d : Dict α β) (a : α) : Bool := (d.get? a).isSome

def getD (d : Dict α β) (a : α) (b : β) : β := (d.get? a).getD b

def set (d : Dict α β) (a : α) (b : β) : Dict α β := ⟨d.toAList.insert a b⟩

def erase (d : Dict α β) (a : α) : Dict α β := ⟨d.toAList.erase a⟩

@[simp] theorem get?_empty (a : α) : (empty : Dict α β).get? a = none := rfl

@[simp] theorem getD_empty (a : α) (b : β) : (empty : Dict α β).getD a b = b := rfl

variable (d : Dict α β)

@[simp] theorem get?_set_self (a : α) (b : β) : (d.set a b).get? a = some b :=
  AList.lookup_insert d.toAList

variable {a c : α} {l : List (α × β)}

@[simp] theorem get?_set_of_ne (b : β) (h : c ≠ a) : (d.set a b).get? c = d.get? c :=
  AList.lookup_insert_ne h

theorem get?_set (a c : α) (b : β) : (d.set a b).get? c = if c = a then some b else d.get? c := by
  by_cases h : c = a
  · subst h
    simp
  · simp [h]

theorem getD_set (a c : α) (b e : β) : (d.set a b).getD c e = if c = a then b else d.getD c e := by
  unfold getD
  rw [get?_set]
  split <;> rfl

@[simp] theorem getD_set_self (a : α) (b e : β) : (d.set a b).getD a e = b := by
  simp [getD_set]

@[simp] theorem getD_set_of_ne (b e : β) (h : c ≠ a) : (d.set a b).getD c e = d.getD c e := by
  simp [getD_set, h]

@[simp] theorem get?_erase_self (a : α) : (d.erase a).get? a = none :=
  AList.lookup_erase a d.toAList

@[simp] theorem get?_erase_of_ne (h : c ≠ a) : (d.erase a).get? c = d.get? c :=
  AList.lookup_erase_ne h

theorem getD_erase (a c : α) (e : β) : (d.erase a).getD c e = if c = a then e else d.getD c e := by
  unfold getD
  by_cases h : c = a
  · subst h
    simp
  · simp [h]

@[simp] theorem getD_erase_self (a : α) (e : β) : (d.erase a).getD a e = e := by
  simp [getD_erase]

@[simp] theorem getD_erase_of_ne (e : β) (h : c ≠ a) : (d.erase a).getD c e = d.getD c e := by
  simp [getD_erase, h]

theorem contains_set (a c : α) (b : β) :
    (d.set a b).contains c = true ↔ c = a ∨ d.contains c = true := by
  unfold contains
  by_cases h : c = a <;> simp [h]

theorem contains_erase (a c : α) : (d.erase a).contains c = true ↔ c ≠ a ∧ d.contains c = true := by
  unfold contains
  by_cases h : c = a
  · subst h
    simp
  · simp [h]

/-! The dictionary of a list of items, the last one of a key kept. -/

def setAll (d : Dict α β) (l : List (α × β)) : Dict α β := l.foldl (fun d e => d.set e.1 e.2) d

theorem get?_setAll_of_notMem (h : a ∉ l.map Prod.fst) : (d.setAll l).get? a = d.get? a := by
  induction l generalizing d with
  | nil => rfl
  | cons e l ih =>
    simp only [map_cons, mem_cons, not_or] at h
    exact (ih (d.set e.1 e.2) h.2).trans (get?_set_of_ne d e.2 h.1)

theorem get?_setAll (hn : (l.map Prod.fst).Nodup) {b : β} (h : (a, b) ∈ l) :
    (d.setAll l).get? a = some b := by
  induction l generalizing d with
  | nil => cases h
  | cons e l ih =>
    obtain ⟨hnew, hn⟩ := nodup_cons.mp hn
    rcases mem_cons.mp h with rfl | h
    · exact (get?_setAll_of_notMem _ hnew).trans (get?_set_self ..)
    · exact ih (d.set e.1 e.2) hn h

/-- `d.update(d')`. -/
def update (d d' : Dict α β) : Dict α β := d.setAll (d'.toAList.entries.map (fun e => (e.1, e.2)))

theorem get?_update (d d' : Dict α β) (a : α) :
    (d.update d').get? a = (d'.get? a).or (d.get? a) := by
  have hkeys : (d'.toAList.entries.map (fun e => (e.1, e.2))).map Prod.fst = d'.toAList.keys := by
    rw [map_map]
    rfl
  cases h : d'.get? a with
  | none =>
    refine (get?_setAll_of_notMem d ?_).trans rfl
    rw [hkeys]
    exact AList.lookup_eq_none.mp h
  | some b =>
    refine (get?_setAll d (by rw [hkeys]; exact d'.toAList.nodupKeys) ?_).trans rfl
    exact mem_map.mpr ⟨⟨a, b⟩, AList.mem_lookup_iff.mp h, rfl⟩

/-! The contribution of one key to a sum over the values. -/

def weight (f : β → Nat) (d : Dict α β) : Nat := (d.toAList.entries.map (fun e => f e.2)).sum

variable (f : β → Nat)

section
variable (e : β) (he : f e = 0) (d : Dict α β)
include he

theorem weight_erase (a : α) : (d.erase a).weight f + f (d.getD a e) = d.weight f := by
  obtain ⟨s⟩ := d
  by_cases h : a ∈ s
  · obtain ⟨b, l1, l2, -, hs, hk⟩ := exists_of_kerase (AList.mem_keys.mp h)
    have hl : s.lookup a = some b := by
      have hm : (⟨a, b⟩ : Sigma fun _ : α => β) ∈ s.entries := by simp [hs]
      exact AList.mem_lookup_iff.mpr hm
    have hw : (erase ⟨s⟩ a).weight f = ((l1 ++ l2).map (fun e => f e.2)).sum := by
      rw [← hk]
      rfl
    have hw' : weight f ⟨s⟩ = ((l1 ++ ⟨a, b⟩ :: l2).map (fun e => f e.2)).sum := by
      rw [← hs]
      rfl
    simp only [map_append, map_cons, sum_append, sum_cons] at hw hw'
    simp only [getD, get?, hl, Option.getD_some]
    omega
  · have hl : s.lookup a = none := AList.lookup_eq_none.mpr h
    have hk : (s.erase a).entries = s.entries := kerase_of_notMem_keys h
    simp [weight, erase, getD, get?, hl, hk, he]

theorem weight_set (a : α) (b : β) : (d.set a b).weight f + f (d.getD a e) = d.weight f + f b := by
  have hw : (d.set a b).weight f = f b + (d.erase a).weight f := by
    have hk : (d.toAList.erase a).entries = d.toAList.entries.kerase a := rfl
    simp [weight, set, erase, hk]
  have := weight_erase f e he d a
  omega

theorem le_weight (a : α) : f (d.getD a e) ≤ d.weight f := by
  have := weight_erase f e he d a
  omega

theorem add_le_weight {b : α} (hab : b ≠ a) : f (d.getD a e) + f (d.getD b e) ≤ d.weight f := by
  have h1 := weight_erase f e he d a
  have h2 := le_weight f e he (d.erase a) b
  rw [getD_erase_of_ne d e hab] at h2
  omega

end

end Dict
end TailBlend
