import TailBlend.Lib.Call
import TailBlend.Lib.OrderedDict
import Mathlib.Algebra.Order.BigOperators.Group.List

/-! The size-bounded cache of `vllm/utils/cache.py` over `cachetools.LRUCache`. -/
namespace TailBlend
open OrderedDict List

/-- `data` and `order` are the base class's private dictionaries. -/
structure LRUCache (κ ν : Type) where
  maxsize : Nat
  getsizeof : ν → Nat
  data : List (κ × ν)
  order : List κ
  pinnedItems : List κ

namespace LRUCache
variable {κ ν : Type} [DecidableEq κ]

def init (capacity : Nat) (getsizeof : ν → Nat) : LRUCache κ ν := ⟨capacity, getsizeof, [], [], []⟩

section
variable (c : LRUCache κ ν)

def keys : List κ := c.data.map Prod.fst

def weight (size : ν → Nat) (d : List (κ × ν)) : Nat := (d.map fun e => size e.2).sum

def currsize : Nat := weight c.getsizeof c.data

/-- `move_to_end`, or the key is put at the end, cached or not. -/
def touch (key : κ) : LRUCache κ ν :=
  { c with order := c.order.filter (· ≠ key) ++ [key] }

def delitem (key : κ) : LRUCache κ ν :=
  { c with
    data := erase c.data key
    order := c.order.filter (· ≠ key)
    pinnedItems := c.pinnedItems.filter (· ≠ key) }

def pop (key : κ) : Call (LRUCache κ ν) (Option ν) := fun c =>
  match get? c.data key with
  | none => some (.ok none, c)
  | some value => some (.ok (some value), c.delitem key)

def lruKey (removePinned : Bool) : Option κ :=
  if removePinned then c.order.head? else c.order.find? (fun key => key ∉ c.pinnedItems)

def popitem (removePinned : Bool) : Call (LRUCache κ ν) (κ × Option ν) := fun c =>
  match c.lruKey removePinned with
  | none => some (.error (if removePinned then .stopIteration else
      .runtimeError "All items are pinned, cannot remove oldest from the cache."), c)
  | some key => (do return (key, ← pop key) : Call (LRUCache κ ν) _) c

/-- `while currsize + size > maxsize: popitem()`. -/
def makeRoom (size : Nat) : Nat → Call (LRUCache κ ν) Unit
  | 0 => fun _ => none
  | fuel + 1 => fun c =>
    if c.currsize + size > c.maxsize then (popitem false >>= fun _ => makeRoom size fuel) c
    else some (.ok (), c)

def store (key : κ) (value : ν) : Call (LRUCache κ ν) Unit := fun c =>
  some (.ok (), touch { c with data := set c.data key value } key)

def setitem (fuel : Nat) (key : κ) (value : ν) : Call (LRUCache κ ν) Unit := fun c =>
  if c.getsizeof value > c.maxsize then some (.error (.valueError "value too large"), c)
  else if (get? c.data key).all (fun old => c.getsizeof old < c.getsizeof value) then
    (makeRoom (c.getsizeof value) fuel >>= fun _ => store key value) c
  else store key value c

def pin [ToString κ] (key : κ) : Call (LRUCache κ ν) Unit := fun c =>
  if key ∈ c.keys then some (.ok (), { c with pinnedItems := c.pinnedItems.insert key })
  else some (.error (.valueError s!"Cannot pin key: {key} not in cache."), c)

def removeOldest (removePinned : Bool) : Call (LRUCache κ ν) Unit := fun c =>
  if c.data.length = 0 then some (.ok (), c)
  else (popitem removePinned >>= fun _ => pure ()) c

def clear : Nat → Call (LRUCache κ ν) Unit
  | 0 => fun _ => none
  | fuel + 1 => fun c =>
    if c.data.length > 0 then (removeOldest true >>= fun _ => clear fuel) c
    else some (.ok (), c)

/-- The order lists the cached keys, each once, and the items fit. -/
structure Sound : Prop where
  keys : c.keys.Nodup
  order : c.order.Nodup
  listed : ∀ k, k ∈ c.order ↔ k ∈ c.keys
  pinned : ∀ k ∈ c.pinnedItems, k ∈ c.keys
  room : c.currsize ≤ c.maxsize

end

omit [DecidableEq κ] in
theorem sound_init (capacity : Nat) (getsizeof : ν → Nat) :
    (init capacity getsizeof : LRUCache κ ν).Sound := by
  constructor <;> simp [init, keys, currsize, weight]

section weight
variable {size : ν → Nat} {d : List (κ × ν)} {k : κ} {v : ν}

omit [DecidableEq κ] in
theorem weight_filter_le (size : ν → Nat) (d : List (κ × ν)) (p : κ × ν → Bool) :
    weight size (d.filter p) ≤ weight size d :=
  ((filter_sublist (p := p) (l := d)).map _).sum_le_sum (by simp)

omit [DecidableEq κ] in
theorem weight_append (size : ν → Nat) (d d' : List (κ × ν)) :
    weight size (d ++ d') = weight size d + weight size d' := by
  simp [weight]

end weight

variable {c : LRUCache κ ν} {k : κ} {v : ν}

theorem keys_delitem (c : LRUCache κ ν) (k : κ) : (c.delitem k).keys = c.keys.filter (· ≠ k) :=
  keys_erase c.data k

theorem mem_keys_delitem {x : κ} : x ∈ (c.delitem k).keys ↔ x ∈ c.keys ∧ x ≠ k := by
  simp [keys_delitem]

theorem Sound.delitem (h : c.Sound) (k : κ) : (c.delitem k).Sound where
  keys := by
    rw [keys_delitem]
    exact h.keys.filter _
  order := h.order.filter _
  listed x := by
    rw [mem_keys_delitem, ← h.listed]
    simp [LRUCache.delitem]
  pinned x hx := by
    obtain ⟨hx, hne⟩ : x ∈ c.pinnedItems ∧ x ≠ k := by simpa [LRUCache.delitem] using hx
    exact mem_keys_delitem.mpr ⟨h.pinned x hx, hne⟩
  room := (weight_filter_le _ c.data _).trans h.room

theorem Sound.touch (h : c.Sound) (hk : k ∈ c.keys) : (c.touch k).Sound where
  keys := h.keys
  order := nodup_append.mpr ⟨h.order.filter _, nodup_singleton k, by simp⟩
  listed x := by
    change x ∈ c.order.filter (· ≠ k) ++ [k] ↔ x ∈ c.keys
    rw [mem_append, mem_filter, h.listed]
    by_cases hx : x = k <;> simp [hx, hk]
  pinned := h.pinned
  room := h.room

theorem pop_cached (h : k ∈ c.keys) : ∃ v, pop k c = some (.ok (some v), c.delitem k) := by
  obtain ⟨v, hv⟩ := get?_of_mem_keys h
  exact ⟨v, by simp only [pop, hv]⟩

theorem popitem_cached {b : Bool} (hk : c.lruKey b = some k) (h : k ∈ c.keys) :
    ∃ v, popitem b c = some (.ok (k, some v), c.delitem k) := by
  obtain ⟨v, hv⟩ := pop_cached h
  refine ⟨v, ?_⟩
  simp only [popitem, hk]
  rw [Call.bind_ok _ hv]
  rfl

theorem makeRoom_stuck {size : Nat} (hk : c.lruKey false = some k) (h : k ∉ c.keys)
    (hfull : c.maxsize < c.currsize + size) (fuel : Nat) : makeRoom size fuel c = none := by
  have hpop : popitem false c = some (.ok (k, none), c) := by
    have hp : pop k c = some (.ok none, c) := by simp only [pop, get?_eq_none.mpr h]
    simp only [popitem, hk]
    rw [Call.bind_ok _ hp]
    rfl
  induction fuel with
  | zero => rfl
  | succ fuel ih => simp only [makeRoom, if_pos hfull, Call.bind_ok _ hpop, ih]

theorem Sound.lruKey_mem (h : c.Sound) {b : Bool} (hk : c.lruKey b = some k) : k ∈ c.keys := by
  rw [← h.listed]
  cases b with
  | false => exact mem_of_find?_eq_some hk
  | true => exact mem_of_mem_head? hk

theorem length_delitem (h : k ∈ c.keys) : (c.delitem k).data.length < c.data.length := by
  obtain ⟨e, he, rfl⟩ := mem_map.mp h
  exact length_filter_lt_length_iff_exists.mpr ⟨e, he, by simp⟩

structure Grows (c c' : LRUCache κ ν) (n : Nat) : Prop where
  maxsize : c'.maxsize = c.maxsize
  getsizeof : c'.getsizeof = c.getsizeof
  length : c'.data.length ≤ c.data.length + n

omit [DecidableEq κ] in
theorem Grows.trans {c1 c2 : LRUCache κ ν} {m n : Nat} (h : c.Grows c1 m) (h' : c1.Grows c2 n) :
    c.Grows c2 (m + n) :=
  ⟨h'.maxsize.trans h.maxsize, h'.getsizeof.trans h.getsizeof, by
    have := h.length
    have := h'.length
    omega⟩

omit [DecidableEq κ] in
theorem Grows.refl (c : LRUCache κ ν) {n : Nat} : c.Grows c n := ⟨rfl, rfl, Nat.le_add_right _ _⟩

theorem Grows.delitem (h : k ∈ c.keys) {n : Nat} : c.Grows (c.delitem k) n :=
  ⟨rfl, rfl, (length_delitem h).le.trans (Nat.le_add_right _ _)⟩

theorem Sound.removeOldest (h : c.Sound) (b : Bool) :
    ∃ r c', removeOldest b c = some (r, c') ∧ c'.Sound ∧ c.Grows c' 0 ∧
      (c.data ≠ [] → b = true → r = .ok () ∧ c'.data.length < c.data.length) := by
  unfold LRUCache.removeOldest
  by_cases hlen : c.data.length = 0
  · rw [if_pos hlen]
    exact ⟨.ok (), c, rfl, h, .refl c, fun hne => absurd (length_eq_zero_iff.mp hlen) hne⟩
  rw [if_neg hlen]
  cases hk : c.lruKey b with
  | none =>
    refine ⟨.error (if b then .stopIteration else .runtimeError
      "All items are pinned, cannot remove oldest from the cache."), c, ?_, h, .refl c,
      fun hne hb => absurd hk ?_⟩
    · change (popitem b c).bind _ = _
      simp only [popitem, hk]
      rfl
    -- a cached key stands in the order
    obtain ⟨e, he⟩ := exists_mem_of_ne_nil _ hne
    have hin := (h.listed e.1).mpr (mem_map_of_mem he)
    subst hb
    simpa [lruKey] using ne_nil_of_mem hin
  | some k =>
    have hmem := h.lruKey_mem hk
    obtain ⟨v, hv⟩ := popitem_cached hk hmem
    rw [Call.bind_ok _ hv]
    have hlt := length_delitem hmem
    exact ⟨.ok (), _, rfl, h.delitem k, .delitem hmem, fun _ _ => ⟨rfl, hlt⟩⟩

theorem Sound.clear (h : c.Sound) {fuel : Nat} (hfuel : c.data.length < fuel) :
    ∃ c', clear fuel c = some (.ok (), c') ∧ c'.Sound ∧ c.Grows c' 0 := by
  induction fuel generalizing c with
  | zero => omega
  | succ fuel ih =>
    unfold clear
    by_cases hlen : c.data.length > 0
    · rw [if_pos hlen]
      obtain ⟨r, c1, hr, h1, hgrows, hlt⟩ := h.removeOldest true
      obtain ⟨rfl, hlt⟩ := hlt (ne_nil_of_length_pos hlen) rfl
      obtain ⟨c', hc', hs, hgrows'⟩ := ih h1 (by omega)
      rw [Call.bind_ok _ hr]
      exact ⟨c', hc', hs, hgrows.trans hgrows'⟩
    · rw [if_neg hlen]
      exact ⟨c, rfl, h, .refl c⟩

end LRUCache

end TailBlend
