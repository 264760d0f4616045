import TailBlend.LRUCache
import TailBlend.Lib.Trace
import Mathlib.Data.List.Induction

/-! The multimodal caches' use of the cache: every key of a request is touched, then each item is
looked up and stored where it is missing. -/
namespace TailBlend
open OrderedDict Call List

namespace LRUCache
variable {κ ν : Type} [DecidableEq κ]

def get (key : κ) : Call (LRUCache κ ν) (Option ν) := fun c =>
  match get? c.data key with
  | some value => some (.ok (some value), c.touch key)
  | none => some (.ok none, c)

def getAndUpdateItem [ToString κ] (fuel : Nat) (key : κ) (item : Option ν) :
    Call (LRUCache κ ν) (Option ν) := do
  match ← get key with
  | some cached => return some cached
  | none =>
    match item with
    | none => throw (.assertionError s!"Expected a cached item for mm_hash='{key}'")
    | some value =>
      setitem fuel key value
      return none

def touchAll (keys : List κ) : Call (LRUCache κ ν) Unit := fun c =>
  some (.ok (), keys.foldl touch c)

def updateItems [ToString κ] (fuel : Nat) :
    List (κ × Option ν) → Call (LRUCache κ ν) (List (Option ν))
  | [] => return []
  | (key, item) :: rest => do
    let cached ← getAndUpdateItem fuel key item
    return cached :: (← updateItems fuel rest)

def updateRequest [ToString κ] (fuel : Nat) (items : List (κ × Option ν)) :
    Call (LRUCache κ ν) (List (Option ν)) := do
  touchAll (items.map Prod.fst)
  updateItems fuel items

inductive Event (κ ν : Type) where
  | request (items : List (κ × Option ν))
  | get (key : κ)
  | pin (key : κ)
  | pop (key : κ)
  | removeOldest (removePinned : Bool)
  | clear

def Event.size : Event κ ν → Nat
  | .request items => items.length
  | _ => 0

def perform [ToString κ] (fuel : Nat) : Event κ ν → Call (LRUCache κ ν) Unit
  | .request items => updateRequest fuel items >>= fun _ => pure ()
  | .get key => LRUCache.get key >>= fun _ => pure ()
  | .pin key => LRUCache.pin key
  | .pop key => LRUCache.pop key >>= fun _ => pure ()
  | .removeOldest removePinned => LRUCache.removeOldest removePinned
  | .clear => LRUCache.clear fuel

/-- A call that raises is over; the run ends with one that does not return. -/
def next [ToString κ] (fuel : Nat) (c : LRUCache κ ν) (e : Event κ ν) :
    Except Unit (LRUCache κ ν) :=
  match perform fuel e c with
  | none => .error ()
  | some (_, c) => .ok c

/-- An item without data is cached or follows one with the same key. -/
def Supplied : List κ → List (κ × Option ν) → Prop
  | _, [] => True
  | ks, (k, item) :: rest => (k ∈ ks ∨ item.isSome) ∧ Supplied (k :: ks) rest

instance decidableSupplied : ∀ (ks : List κ) (items : List (κ × Option ν)),
    Decidable (Supplied ks items)
  | _, [] => isTrue trivial
  | ks, (k, _) :: rest =>
    haveI := decidableSupplied (k :: ks) rest
    inferInstanceAs (Decidable (_ ∧ _))

def newItems : List κ → List (κ × Option ν) → List (κ × ν)
  | _, [] => []
  | ks, (k, item) :: rest =>
    (if k ∈ ks then [] else item.toList.map (Prod.mk k)) ++ newItems (k :: ks) rest

def kept (c : LRUCache κ ν) (requested : List κ) : List (κ × ν) :=
  c.data.filter (fun e => e.1 ∈ requested ∨ e.1 ∈ c.pinnedItems)

/-- A request's items fit the cache together, beside the pinned ones. -/
def Fits (c : LRUCache κ ν) : Event κ ν → Prop
  | .request items => Supplied c.keys items ∧
    weight c.getsizeof (c.kept (items.map Prod.fst)) +
      weight c.getsizeof (newItems c.keys items) ≤ c.maxsize
  | _ => True

instance decidableFits (c : LRUCache κ ν) : ∀ e : Event κ ν, Decidable (c.Fits e)
  | .request _ => inferInstanceAs (Decidable (_ ∧ _))
  | .get _ | .pin _ | .pop _ | .removeOldest _ | .clear => isTrue trivial

section items
variable {ks ks' : List κ} {items : List (κ × Option ν)}

theorem newItems_congr (h : ∀ k ∈ items.map Prod.fst, k ∈ ks ↔ k ∈ ks') :
    newItems ks items = newItems ks' items := by
  induction items generalizing ks ks' with
  | nil => rfl
  | cons e rest ih =>
    obtain ⟨k, item⟩ := e
    simp only [newItems, h k mem_cons_self]
    congr 1
    refine ih fun x hx => ?_
    rw [mem_cons, mem_cons, h x (mem_cons_of_mem _ hx)]

omit [DecidableEq κ] in
theorem supplied_congr (h : ∀ k ∈ items.map Prod.fst, k ∈ ks ↔ k ∈ ks') :
    Supplied ks items ↔ Supplied ks' items := by
  induction items generalizing ks ks' with
  | nil => rfl
  | cons e rest ih =>
    obtain ⟨k, item⟩ := e
    simp only [Supplied, h k mem_cons_self]
    refine and_congr_right fun _ => ih fun x hx => ?_
    rw [mem_cons, mem_cons, h x (mem_cons_of_mem _ hx)]

end items

/-- Between the touches and the last update of a request for the keys `ks`: its own keys stand at
the end of the order, and those of the items to come may lack their data. -/
structure Midway (c : LRUCache κ ν) (ks : List κ) (rest : List (κ × Option ν)) : Prop where
  keys : c.keys.Nodup
  order : c.order.Nodup
  behind : ∃ others mine, c.order = others ++ mine ∧ (∀ k ∈ others, k ∉ ks) ∧ ∀ k ∈ mine, k ∈ ks
  listed : ∀ k, k ∈ c.order ↔ k ∈ c.keys ∨ k ∈ rest.map Prod.fst
  mine : ∀ k ∈ rest.map Prod.fst, k ∈ ks
  pinned : ∀ k ∈ c.pinnedItems, k ∈ c.keys
  room : c.currsize ≤ c.maxsize
  supplied : Supplied c.keys rest
  fits : weight c.getsizeof (c.kept ks) + weight c.getsizeof (newItems c.keys rest) ≤ c.maxsize

variable {c : LRUCache κ ν} {ks : List κ} {items rest : List (κ × Option ν)} {item : Option ν}
  {k : κ} {v : ν}

theorem Midway.sound (h : c.Midway ks []) : c.Sound :=
  ⟨h.keys, h.order, fun k => by simp [h.listed], h.pinned, h.room⟩

theorem Midway.delitem (h : c.Midway ks rest) (hk : k ∉ ks) (hpin : k ∉ c.pinnedItems) :
    (c.delitem k).Midway ks rest := by
  have hrest (x : κ) (hx : x ∈ rest.map Prod.fst) : x ∈ c.keys ↔ x ∈ (c.delitem k).keys := by
    have hne : x ≠ k := fun he => hk (he ▸ h.mine x hx)
    simp [mem_keys_delitem, hne]
  have hpins : (c.delitem k).pinnedItems = c.pinnedItems :=
    filter_eq_self.mpr fun x hx => by simpa using fun he : x = k => hpin (he ▸ hx)
  have hkept : (c.delitem k).kept ks = c.kept ks := by
    unfold kept
    simp only [LRUCache.delitem, erase, filter_filter]
    refine filter_congr fun e _ => ?_
    by_cases he : e.1 = k <;> simp [he, hk, hpin]
  obtain ⟨others, mine, ho, hothers, hmine⟩ := h.behind
  refine ⟨?_, h.order.filter _, ⟨others.filter (· ≠ k), mine.filter (· ≠ k), ?_, ?_, ?_⟩,
    fun x => ?_, h.mine, fun x hx => ?_, (weight_filter_le _ c.data _).trans h.room,
    (supplied_congr hrest).mp h.supplied, ?_⟩
  · rw [keys_delitem]
    exact h.keys.filter _
  · simp only [LRUCache.delitem, ho, filter_append]
  · exact fun x hx => hothers x (mem_of_mem_filter hx)
  · exact fun x hx => hmine x (mem_of_mem_filter hx)
  · rw [mem_keys_delitem, LRUCache.delitem, mem_filter, h.listed]
    by_cases hx : x = k
    · subst hx
      simpa using fun v hv => hk (h.mine x (mem_map.mpr ⟨_, hv, rfl⟩))
    · simp [hx]
  · rw [hpins] at hx
    exact mem_keys_delitem.mpr ⟨h.pinned x hx, fun he => hpin (he ▸ hx)⟩
  · rw [hkept, ← newItems_congr hrest]
    exact h.fits

theorem Midway.lruKey (h : c.Midway ks rest) {size : Nat}
    (hsize : weight c.getsizeof (c.kept ks) + size ≤ c.maxsize)
    (hfull : c.maxsize < c.currsize + size) :
    ∃ k, c.lruKey false = some k ∧ k ∈ c.keys ∧ k ∉ ks ∧ k ∉ c.pinnedItems := by
  obtain ⟨others, mine, ho, hothers, hmine⟩ := h.behind
  obtain ⟨e, he, hfree⟩ : ∃ e ∈ c.data, ¬ (e.1 ∈ ks ∨ e.1 ∈ c.pinnedItems) := by
    by_contra hall
    push Not at hall
    have heq : c.kept ks = c.data := filter_eq_self.mpr fun e he => by simpa using hall e he
    rw [heq] at hsize
    unfold currsize at hfull
    omega
  rw [not_or] at hfree
  have hin : e.1 ∈ others := by
    have hmem := (h.listed e.1).mpr (.inl (mem_map_of_mem he))
    rw [ho, mem_append] at hmem
    exact hmem.resolve_right fun hm => hfree.1 (hmine _ hm)
  obtain ⟨k, hk⟩ : ∃ k, others.find? (fun key => key ∉ c.pinnedItems) = some k :=
    Option.isSome_iff_exists.mp (find?_isSome.mpr ⟨e.1, hin, by simpa using hfree.2⟩)
  have hmem := mem_of_find?_eq_some hk
  have hnot := hothers k hmem
  refine ⟨k, ?_, ?_, hnot, by simpa using find?_some hk⟩
  · simp only [LRUCache.lruKey, Bool.false_eq_true, if_false, ho, find?_append, hk, Option.some_or]
  · have hlist := (h.listed k).mp (by rw [ho]; exact mem_append_left _ hmem)
    exact hlist.resolve_right fun hr => hnot (h.mine k hr)

theorem Midway.makeRoom (h : c.Midway ks rest) {size fuel : Nat}
    (hsize : weight c.getsizeof (c.kept ks) + size ≤ c.maxsize) (hfuel : c.data.length < fuel) :
    ∃ c', makeRoom size fuel c = some (.ok (), c') ∧ c'.Midway ks rest ∧
      c'.currsize + size ≤ c'.maxsize ∧ c.Grows c' 0 ∧ (k ∈ c'.keys → k ∈ c.keys) := by
  induction fuel generalizing c with
  | zero => omega
  | succ fuel ih =>
    unfold LRUCache.makeRoom
    by_cases hfull : c.currsize + size > c.maxsize
    · rw [if_pos hfull]
      obtain ⟨x, hx, hmem, hnot, hpin⟩ := h.lruKey hsize hfull
      obtain ⟨w, hpop⟩ := popitem_cached hx hmem
      rw [bind_ok _ hpop]
      have h1 := h.delitem hnot hpin
      have hlt := length_delitem hmem
      have hkept : weight c.getsizeof ((c.delitem x).kept ks) ≤ weight c.getsizeof (c.kept ks) := by
        have hsub : ((c.delitem x).kept ks).Sublist (c.kept ks) := by
          refine (filter_sublist.filter _).trans (monotone_filter_right _ fun e he => ?_)
          simp only [LRUCache.delitem, mem_filter, decide_eq_true_eq] at he ⊢
          exact he.imp_right And.left
        exact (hsub.map _).sum_le_sum (by simp)
      obtain ⟨c', hc', hmid, hroom, hgrows, hkeys⟩ := ih h1 (by
        change weight c.getsizeof _ + size ≤ c.maxsize
        omega) (by omega)
      exact ⟨c', hc', hmid, hroom, (Grows.delitem hmem).trans hgrows, fun hin =>
        (mem_keys_delitem.mp (hkeys hin)).1⟩
    · rw [if_neg hfull]
      exact ⟨c, rfl, h, by omega, .refl c, id⟩

theorem Midway.settle (h : c.Midway ks ((k, item) :: rest)) {c' : LRUCache κ ν}
    (hkeys : ∀ x, x ∈ c'.keys ↔ x = k ∨ x ∈ c.keys) (hnodup : c'.keys.Nodup)
    (horder : c'.order = c.order.filter (· ≠ k) ++ [k]) (hpins : c'.pinnedItems = c.pinnedItems)
    (hroom : c'.currsize ≤ c'.maxsize)
    (hfits : weight c'.getsizeof (c'.kept ks) + weight c'.getsizeof (newItems (k :: c.keys) rest) ≤
      c'.maxsize) : c'.Midway ks rest := by
  have hk : k ∈ ks := h.mine k mem_cons_self
  have hsame (x : κ) (_ : x ∈ rest.map Prod.fst) : x ∈ c'.keys ↔ x ∈ k :: c.keys := by
    rw [hkeys, mem_cons]
  obtain ⟨others, mine, ho, hothers, hmine⟩ := h.behind
  refine ⟨hnodup, ?_, ⟨others.filter (· ≠ k), mine.filter (· ≠ k) ++ [k], ?_, ?_, ?_⟩, fun x => ?_,
    fun x hx => h.mine x (mem_cons_of_mem _ hx), fun x hx => ?_, hroom,
    (supplied_congr hsame).mpr h.supplied.2, ?_⟩
  · rw [horder]
    exact nodup_append.mpr ⟨h.order.filter _, nodup_singleton k, by simp⟩
  · rw [horder, ho, filter_append, append_assoc]
  · exact fun x hx => hothers x (mem_of_mem_filter hx)
  · intro x hx
    rcases mem_append.mp hx with hx | hx
    · exact hmine x (mem_of_mem_filter hx)
    · rwa [mem_singleton.mp hx]
  · rw [horder, mem_append, mem_filter, h.listed, hkeys]
    by_cases hx : x = k <;> simp [hx]
  · rw [hpins] at hx
    exact (hkeys x).mpr (.inr (h.pinned x hx))
  · rw [newItems_congr hsame]
    exact hfits

theorem Midway.hit (h : c.Midway ks ((k, item) :: rest)) (hk : k ∈ c.keys) :
    (c.touch k).Midway ks rest := by
  refine h.settle (fun x => ?_) h.keys rfl rfl h.room ?_
  · exact ⟨.inr, fun hx => hx.elim (fun he => he ▸ hk) id⟩
  · have hfits := h.fits
    rw [newItems, if_pos hk] at hfits
    exact hfits

theorem Midway.store (h : c.Midway ks ((k, some v) :: rest)) (hk : k ∉ c.keys)
    (hroom : c.currsize + c.getsizeof v ≤ c.maxsize) :
    ∃ c', store k v c = some (.ok (), c') ∧ c'.Midway ks rest ∧ c.Grows c' 1 := by
  have hset : set c.data k v = c.data ++ [(k, v)] := set_of_notMem hk v
  refine ⟨_, rfl, h.settle (fun x => ?_) ?_ rfl rfl ?_ ?_, rfl, rfl, ?_⟩
  · simp [LRUCache.keys, touch, hset, or_comm]
  · exact nodup_keys_set h.keys k v
  · simpa [currsize, touch, hset, weight] using hroom
  · -- what was new is now among the request's own
    have hin : k ∈ ks := h.mine k mem_cons_self
    have hfits := h.fits
    rw [newItems, if_neg hk] at hfits
    simp only [kept, touch, hset, filter_append, weight_append] at hfits ⊢
    simp only [hin, true_or, decide_true, filter_cons_of_pos]
    simpa [add_assoc] using hfits
  · simp [touch, hset]

variable [ToString κ] {fuel : Nat}

theorem Midway.getAndUpdateItem (h : c.Midway ks ((k, item) :: rest))
    (hfuel : c.data.length < fuel) :
    ∃ r c', getAndUpdateItem fuel k item c = some (.ok r, c') ∧ c'.Midway ks rest ∧
      c.Grows c' 1 := by
  unfold LRUCache.getAndUpdateItem
  by_cases hk : k ∈ c.keys
  · obtain ⟨w, hw⟩ := get?_of_mem_keys hk
    have hget : get k c = some (.ok (some w), c.touch k) := by simp only [get, hw]
    rw [bind_ok _ hget]
    exact ⟨some w, _, rfl, h.hit hk, rfl, rfl, Nat.le_succ _⟩
  have hget : get k c = some (.ok none, c) := by
    simp only [get, get?_eq_none.mpr hk]
  rw [bind_ok _ hget]
  obtain ⟨w, rfl⟩ : ∃ w, item = some w := Option.isSome_iff_exists.mp (h.supplied.1.resolve_left hk)
  have hsize : weight c.getsizeof (c.kept ks) + c.getsizeof w ≤ c.maxsize := by
    have hfits := h.fits
    rw [newItems, if_neg hk] at hfits
    simp only [Option.toList_some, map_cons, weight_append] at hfits
    simp only [weight, map_cons, map_nil, sum_cons] at hfits ⊢
    omega
  obtain ⟨c1, hc1, hmid, hroom, hgrows, hkeys⟩ := h.makeRoom hsize hfuel (k := k)
  rw [← hgrows.getsizeof] at hroom
  obtain ⟨c', hc', hmid', hgrows'⟩ := hmid.store (fun hin => hk (hkeys hin)) hroom
  have hset : setitem fuel k w c = some (.ok (), c') := by
    simp only [setitem, get?_eq_none.mpr hk, Option.all_none]
    rw [if_neg (by omega), bind_ok _ hc1]
    exact hc'
  exact ⟨none, c', bind_ok (fun _ => pure none) hset, hmid', by
    simpa using hgrows.trans hgrows'⟩

theorem Midway.updateItems (h : c.Midway ks (items ++ rest))
    (hfuel : c.data.length + items.length < fuel) :
    ∃ r c', updateItems fuel items c = some (.ok r, c') ∧ c'.Midway ks rest ∧
      c.Grows c' items.length := by
  induction items generalizing c with
  | nil => exact ⟨[], c, rfl, h, .refl c⟩
  | cons e items ih =>
    rw [length_cons] at hfuel
    obtain ⟨r, c1, hc1, hmid, hgrows⟩ := h.getAndUpdateItem (by omega : c.data.length < fuel)
    obtain ⟨rs, c', hc', hmid', hgrows'⟩ := ih hmid (by
      have := hgrows.length
      omega)
    refine ⟨r :: rs, c', ?_, hmid', ?_⟩
    · rw [updateItems, bind_ok _ hc1, bind_ok _ hc']
      rfl
    · rw [length_cons, Nat.add_comm]
      exact hgrows.trans hgrows'

omit [ToString κ] in
theorem touches_eq (c : LRUCache κ ν) (ks : List κ) :
    ∃ mine : List κ, ks.foldl touch c = { c with order := c.order.filter (· ∉ ks) ++ mine } ∧
      mine.Nodup ∧ ∀ k, k ∈ mine ↔ k ∈ ks := by
  induction ks using reverseRecOn with
  | nil => exact ⟨[], by simp, nodup_nil, by simp⟩
  | append_singleton ks k ih =>
    obtain ⟨mine, heq, hnodup, hmem⟩ := ih
    refine ⟨mine.filter (· ≠ k) ++ [k], ?_, ?_, fun x => ?_⟩
    · rw [foldl_append, heq]
      simp only [foldl_cons, foldl_nil, touch, filter_append, filter_filter,
        append_assoc, mem_append, mem_singleton, not_or, Bool.decide_and]
      congr 2
      exact filter_congr fun x _ => Bool.and_comm _ _
    · exact nodup_append.mpr ⟨hnodup.filter _, nodup_singleton k, by simp⟩
    · by_cases hx : x = k <;> simp [hx, hmem]

omit [ToString κ] in
theorem Sound.touchAll (h : c.Sound) (hfits : c.Fits (.request items)) :
    ∃ c', touchAll (items.map Prod.fst) c = some (.ok (), c') ∧
      c'.Midway (items.map Prod.fst) items ∧ c.Grows c' 0 := by
  obtain ⟨mine, heq, hnodup, hmem⟩ := touches_eq c (items.map Prod.fst)
  refine ⟨_, rfl, ?_, ?_⟩ <;> rw [heq]
  · refine ⟨h.keys, ?_, ⟨_, mine, rfl, fun k hk => ?_, fun k => (hmem k).mp⟩, fun k => ?_,
      fun _ => id, h.pinned, h.room, hfits.1, hfits.2⟩
    · refine nodup_append.mpr ⟨h.order.filter _, hnodup, ?_⟩
      rintro x hx y hy rfl
      rw [mem_filter, decide_eq_true_eq] at hx
      exact hx.2 ((hmem x).mp hy)
    · simpa using (mem_filter.mp hk).2
    · simp only [mem_append, mem_filter, h.listed, hmem]
      by_cases hk : k ∈ items.map Prod.fst <;> simp [hk, LRUCache.keys]
  · exact ⟨rfl, rfl, le_rfl⟩

theorem Sound.updateRequest (h : c.Sound) (hfits : c.Fits (.request (items ++ rest)))
    (hfuel : c.data.length + items.length < fuel) :
    ∃ r c', (LRUCache.touchAll ((items ++ rest).map Prod.fst) >>= fun _ =>
        LRUCache.updateItems fuel items) c = some (.ok r, c') ∧
      c'.Midway ((items ++ rest).map Prod.fst) rest ∧ c.Grows c' items.length := by
  obtain ⟨c1, hc1, hmid, hgrows⟩ := h.touchAll hfits
  obtain ⟨r, c', hc', hmid', hgrows'⟩ := hmid.updateItems (by
    have := hgrows.length
    omega : c1.data.length + items.length < fuel)
  rw [bind_ok _ hc1]
  exact ⟨r, c', hc', hmid', by simpa using hgrows.trans hgrows'⟩

theorem Sound.perform (h : c.Sound) {e : Event κ ν} (hfits : c.Fits e)
    (hfuel : c.data.length + e.size < fuel) :
    ∃ r c', perform fuel e c = some (r, c') ∧ c'.Sound ∧ c.Grows c' e.size := by
  cases e with
  | request items =>
    rw [← append_nil items] at hfits
    obtain ⟨r, c', hc', hmid, hgrows⟩ := h.updateRequest hfits hfuel
    rw [append_nil] at hc'
    exact ⟨.ok (), c', bind_ok (fun _ => pure ()) hc', hmid.sound, hgrows⟩
  | get k =>
    by_cases hk : k ∈ c.keys
    · obtain ⟨w, hw⟩ := get?_of_mem_keys hk
      refine ⟨.ok (), _, bind_ok (fun _ => pure ()) (a := some w) ?_, h.touch hk, rfl, rfl, le_rfl⟩
      simp only [get, hw]
    · refine ⟨.ok (), c, bind_ok (fun _ => pure ()) (a := none) ?_, h, .refl c⟩
      simp only [get, get?_eq_none.mpr hk]
  | pin k =>
    simp only [LRUCache.perform, LRUCache.pin]
    by_cases hk : k ∈ c.keys
    · rw [if_pos hk]
      refine ⟨_, _, rfl, ⟨h.keys, h.order, h.listed, fun x hx => ?_, h.room⟩, rfl, rfl, le_rfl⟩
      rcases mem_insert_iff.mp hx with rfl | hx
      · exact hk
      · exact h.pinned x hx
    · rw [if_neg hk]
      exact ⟨_, c, rfl, h, .refl c⟩
  | pop k =>
    by_cases hk : k ∈ c.keys
    · obtain ⟨w, hw⟩ := pop_cached hk
      exact ⟨.ok (), _, bind_ok (fun _ => pure ()) hw, h.delitem k, .delitem hk⟩
    · refine ⟨.ok (), c, bind_ok (fun _ => pure ()) (a := none) ?_, h, .refl c⟩
      simp only [pop, get?_eq_none.mpr hk]
  | removeOldest b =>
    obtain ⟨r, c', hc', hs, hle, -⟩ := h.removeOldest b
    exact ⟨r, c', hc', hs, hle⟩
  | clear =>
    obtain ⟨c', hc', hs, hle⟩ := h.clear hfuel
    exact ⟨.ok (), c', hc', hs, hle⟩

theorem Sound.run (h : c.Sound) {events : List (Event κ ν)}
    (hfuel : c.data.length + (events.map Event.size).sum < fuel)
    (hfits : Trace.Meets (next fuel) Fits c events) :
    ∃ c', Trace.run (next fuel) c events = .ok c' ∧ c'.Sound ∧
      c.Grows c' (events.map Event.size).sum := by
  induction events generalizing c with
  | nil => exact ⟨c, rfl, h, .refl c⟩
  | cons e events ih =>
    rw [map_cons, sum_cons] at hfuel ⊢
    obtain ⟨r, c1, hc1, hs, hgrows⟩ := h.perform hfits.1 (by omega : _ + e.size < fuel)
    have hnext : next fuel c e = .ok c1 := by rw [next, hc1]
    obtain ⟨c', hc', hs', hgrows'⟩ := ih hs (by
      have := hgrows.length
      omega) (hfits.2 c1 hnext)
    refine ⟨c', ?_, hs', hgrows.trans hgrows'⟩
    rw [Trace.run, hnext]
    exact hc'

/-- In every run whose requests fit: every call returns, the order lists the cached keys, the items
fit the capacity, also inside a request, and every item of a request is found or stored. -/
theorem requests_progress {capacity fuel : Nat} {size : ν → Nat} {events : List (Event κ ν)}
    (hfuel : (events.map Event.size).sum < fuel)
    (hfits : Trace.Meets (next fuel) Fits (init capacity size) events) :
    ∃ c, Trace.run (next fuel) (init capacity size) events = .ok c ∧
      c.order.Nodup ∧ (∀ k, k ∈ c.order ↔ k ∈ c.keys) ∧ c.currsize ≤ capacity ∧
      (∀ e, c.Fits e → ∃ n, ∀ fuel > n, ∃ r c', perform fuel e c = some (r, c')) ∧
      ∀ items rest, c.Fits (.request (items ++ rest)) → ∃ n, ∀ fuel > n, ∃ r c',
        (touchAll ((items ++ rest).map Prod.fst) >>= fun _ => updateItems fuel items) c =
          some (.ok r, c') ∧ c'.currsize ≤ capacity := by
  obtain ⟨c, hc, hs, hgrows⟩ := (sound_init capacity size).run (by simpa [init] using hfuel) hfits
  have hmax : c.maxsize = capacity := hgrows.maxsize
  refine ⟨c, hc, hs.order, hs.listed, hmax ▸ hs.room, fun e he => ?_, fun items rest he => ?_⟩
  · refine ⟨c.data.length + e.size, fun fuel hf => ?_⟩
    obtain ⟨r, c', hc', -⟩ := hs.perform he hf
    exact ⟨r, c', hc'⟩
  refine ⟨c.data.length + items.length, fun fuel hf => ?_⟩
  obtain ⟨r, c', hc', hmid, hgrows'⟩ := hs.updateRequest he hf
  exact ⟨r, c', hc', by
    have := hmid.room
    rwa [hgrows'.maxsize, hmax] at this⟩

/-- Two requests for three items of a cache that holds two of them. -/
theorem requests_progress_small :
    ∃ c, Trace.run (next 4) (init 10 id : LRUCache Nat Nat)
      [.request [(1, some 4), (2, some 6)], .request [(3, some 6)]] = .ok c ∧
      c.order.Nodup ∧ (∀ k, k ∈ c.order ↔ k ∈ c.keys) ∧ c.currsize ≤ 10 ∧
      (∀ e, c.Fits e → ∃ n, ∀ fuel > n, ∃ r c', perform fuel e c = some (r, c')) ∧
      ∀ items rest, c.Fits (.request (items ++ rest)) → ∃ n, ∀ fuel > n, ∃ r c',
        (touchAll ((items ++ rest).map Prod.fst) >>= fun _ => updateItems fuel items) c =
          some (.ok r, c') ∧ c'.currsize ≤ 10 :=
  requests_progress (by decide) (by decide +kernel)

/-- Two new items that do not fit together: the second is the oldest key when room is made for it,
and it is not there to be removed. An item that is too large stays in the order. -/
theorem requests_stuck :
    (∀ fuel, perform fuel (.request [(1, some 6), (2, some 6)])
      (init 10 id : LRUCache Nat Nat) = none) ∧
    ∃ c, perform 1 (.request [(1, some 11)]) (init 10 id : LRUCache Nat Nat) =
      some (.error (.valueError "value too large"), c) ∧ 1 ∈ c.order ∧ 1 ∉ c.keys := by
  constructor
  · intro fuel
    cases fuel with
    | zero => rfl
    | succ fuel =>
      have hfirst : getAndUpdateItem (fuel + 1) 1 (some 6) (⟨10, id, [], [1, 2], []⟩ :
          LRUCache Nat Nat) = some (.ok none, ⟨10, id, [(1, 6)], [2, 1], []⟩) := rfl
      have hroom : makeRoom 6 (fuel + 1) (⟨10, id, [(1, 6)], [2, 1], []⟩ : LRUCache Nat Nat) = none :=
        makeRoom_stuck (k := 2) rfl (by decide) (by decide) _
      have hsecond : getAndUpdateItem (fuel + 1) 2 (some 6) (⟨10, id, [(1, 6)], [2, 1], []⟩ :
          LRUCache Nat Nat) = none :=
        bind_none (fun _ => pure none) (bind_none (fun _ => store 2 6) hroom)
      have hitems : updateItems (fuel + 1) [(1, some 6), (2, some 6)]
          (⟨10, id, [], [1, 2], []⟩ : LRUCache Nat Nat) = none := by
        rw [updateItems, bind_ok _ hfirst]
        exact bind_none _ (bind_none _ hsecond)
      exact bind_none (fun _ => pure ()) hitems
  · exact ⟨_, rfl, by decide, by decide⟩

end LRUCache

end TailBlend
