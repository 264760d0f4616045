import TailBlend.MultiModalCache
import Mathlib.Data.List.Sort

/-! The front-end's sender cache, which keeps the items' sizes, and the engine's receiver cache,
which keeps the items. -/
namespace TailBlend
open OrderedDict Call List

namespace LRUCache
variable {κ ν : Type} [DecidableEq κ]

/-- What the sender keeps of the receiver's items: `MultiModalProcessorCacheItemMetadata`. -/
def sizes (c : LRUCache κ ν) : LRUCache κ Nat :=
  ⟨c.maxsize, id, c.data.map (fun e => (e.1, c.getsizeof e.2)), c.order, c.pinnedItems⟩

variable {c : LRUCache κ ν} {k : κ} {v : ν}

omit [DecidableEq κ] in
@[simp] theorem keys_sizes (c : LRUCache κ ν) : c.sizes.keys = c.keys := by
  simp [keys, sizes]

omit [DecidableEq κ] in
@[simp] theorem currsize_sizes (c : LRUCache κ ν) : c.sizes.currsize = c.currsize := by
  simp [currsize, weight, sizes, Function.comp_def]

theorem get?_sizes (c : LRUCache κ ν) (k : κ) :
    get? c.sizes.data k = (get? c.data k).map c.getsizeof := by
  simp [get?, sizes, Function.comp_def]

theorem delitem_sizes (c : LRUCache κ ν) (k : κ) : (c.delitem k).sizes = c.sizes.delitem k := by
  simp [sizes, delitem, erase, filter_map, Function.comp_def]

theorem touches_sizes (c : LRUCache κ ν) (ks : List κ) :
    (ks.foldl touch c).sizes = ks.foldl touch c.sizes := by
  induction ks generalizing c with
  | nil => rfl
  | cons k ks ih => exact ih (c.touch k)

/-- Where the sender's call returns a value, so does the receiver's, and the caches still agree. -/
def Mirrors {α β : Type} (x : Call (LRUCache κ ν) α) (y : Call (LRUCache κ Nat) β)
    (c : LRUCache κ ν) : Prop :=
  ∀ b s, y c.sizes = some (.ok b, s) →
    ∃ a c', x c = some (.ok a, c') ∧ c'.sizes = s ∧ c'.getsizeof = c.getsizeof

omit [DecidableEq κ] in
theorem Mirrors.bind {α β γ δ : Type} {x : Call (LRUCache κ ν) α} {y : Call (LRUCache κ Nat) β}
    {f : α → Call (LRUCache κ ν) γ} {g : β → Call (LRUCache κ Nat) δ} (h : Mirrors x y c)
    (hf : ∀ a b c', c'.getsizeof = c.getsizeof → Mirrors (f a) (g b) c') :
    Mirrors (x >>= f) (y >>= g) c := by
  intro d s hs
  obtain ⟨b, mid, hy, hg⟩ := bind_eq_ok.mp hs
  obtain ⟨a, c1, hx, rfl, hsize⟩ := h b mid hy
  obtain ⟨r, c', hc', heq, hsize'⟩ := hf a b c1 hsize d s hg
  exact ⟨r, c', (bind_ok f hx).trans hc', heq, hsize'.trans hsize⟩

theorem store_mirrors (c : LRUCache κ ν) (k : κ) (v : ν) :
    Mirrors (store k v) (store k (c.getsizeof v)) c := by
  intro _ s hs
  refine ⟨(), _, rfl, ?_, rfl⟩
  have hset : set c.sizes.data k (c.getsizeof v) =
      (set c.data k v).map (fun e => (e.1, c.getsizeof e.2)) := by
    have hkeys : c.sizes.data.map Prod.fst = c.data.map Prod.fst := keys_sizes c
    unfold OrderedDict.set
    rw [hkeys]
    split
    · simp only [sizes, map_map]
      refine map_congr_left fun e _ => ?_
      by_cases he : e.1 = k <;> simp [he]
    · simp [sizes]
  rw [← (Prod.mk.inj (Option.some.inj hs)).2, hset]
  rfl

theorem popitem_mirrors (c : LRUCache κ ν) : Mirrors (popitem false) (popitem false) c := by
  intro r s hs
  cases hkey : c.lruKey false with
  | none =>
    have hkey' : c.sizes.lruKey false = none := hkey
    simp only [popitem, hkey'] at hs
    cases hs
  | some k =>
    have hkey' : c.sizes.lruKey false = some k := hkey
    simp only [popitem, hkey', hkey] at hs ⊢
    obtain ⟨w, mid, hw, hret⟩ := bind_eq_ok.mp hs
    obtain rfl : mid = s := (Prod.mk.inj (Option.some.inj hret)).2
    simp only [pop, get?_sizes] at hw
    cases hk : get? c.data k with
    | none =>
      rw [hk] at hw
      have hpop : pop k c = some (.ok none, c) := by simp only [pop, hk]
      exact ⟨_, c, bind_ok _ hpop, (Prod.mk.inj (Option.some.inj hw)).2, rfl⟩
    | some v =>
      rw [hk] at hw
      have hpop : pop k c = some (.ok (some v), c.delitem k) := by simp only [pop, hk]
      exact ⟨_, _, bind_ok _ hpop,
        (delitem_sizes c k).trans (Prod.mk.inj (Option.some.inj hw)).2, rfl⟩

theorem makeRoom_mirrors (c : LRUCache κ ν) (n fuel : Nat) :
    Mirrors (makeRoom n fuel) (makeRoom n fuel) c := by
  induction fuel generalizing c with
  | zero => exact fun _ _ hs => absurd hs (by simp [makeRoom])
  | succ fuel ih =>
    intro r s hs
    simp only [makeRoom, currsize_sizes] at hs ⊢
    have hmax : c.sizes.maxsize = c.maxsize := rfl
    rw [hmax] at hs
    by_cases hfull : c.currsize + n > c.maxsize
    · rw [if_pos hfull] at hs ⊢
      exact (popitem_mirrors c).bind (fun _ _ c' _ => ih c') r s hs
    · rw [if_neg hfull] at hs ⊢
      exact ⟨(), c, rfl, (Prod.mk.inj (Option.some.inj hs)).2, rfl⟩

theorem setitem_mirrors (hk : k ∉ c.keys) (v : ν) (fuel : Nat) :
    Mirrors (setitem fuel k v) (setitem fuel k (c.getsizeof v)) c := by
  intro r s hs
  have hnone : get? c.data k = none := get?_eq_none.mpr hk
  simp only [setitem, get?_sizes, hnone] at hs ⊢
  by_cases hbig : c.getsizeof v > c.maxsize
  · have hbig' : c.sizes.getsizeof (c.getsizeof v) > c.sizes.maxsize := hbig
    rw [if_pos hbig'] at hs
    cases hs
  have hbig' : ¬ c.sizes.getsizeof (c.getsizeof v) > c.sizes.maxsize := hbig
  rw [if_neg hbig'] at hs
  rw [if_neg hbig]
  refine (makeRoom_mirrors c _ fuel).bind (fun _ _ c' hsize => ?_) r s hs
  rw [← hsize]
  exact store_mirrors c' k v

variable [ToString κ] {fuel : Nat}

theorem getAndUpdateItem_mirrors {item : Option Nat} (hitem : ∀ n ∈ item, n = c.getsizeof v)
    {cached : Option Nat} {s : LRUCache κ Nat}
    (hs : getAndUpdateItem fuel k item c.sizes = some (.ok cached, s)) :
    ∃ r c', getAndUpdateItem fuel k (if cached.isSome then none else some v) c =
      some (.ok r, c') ∧ c'.sizes = s ∧ c'.getsizeof = c.getsizeof := by
  unfold getAndUpdateItem at hs ⊢
  obtain ⟨w, mid, hget, hs⟩ := bind_eq_ok.mp hs
  simp only [get, get?_sizes] at hget
  cases hk : get? c.data k with
  | some u =>
    rw [hk] at hget
    obtain ⟨hw, rfl⟩ := Prod.mk.inj (Option.some.inj hget)
    cases hw
    have hget' : get k c = some (.ok (some u), c.touch k) := by simp only [get, hk]
    rw [bind_ok _ hget']
    exact ⟨some u, c.touch k, rfl, (Prod.mk.inj (Option.some.inj hs)).2, rfl⟩
  | none =>
    rw [hk] at hget
    obtain ⟨hw, rfl⟩ := Prod.mk.inj (Option.some.inj hget)
    cases hw
    have hget' : get k c = some (.ok none, c) := by simp only [get, hk]
    rw [bind_ok _ hget']
    cases item with
    | none => cases hs
    | some n =>
      obtain rfl := hitem n rfl
      obtain ⟨u, mid, hset, hret⟩ := bind_eq_ok.mp hs
      obtain ⟨hcached, rfl⟩ := Prod.mk.inj (Option.some.inj hret)
      cases hcached
      obtain ⟨a, c', hc', heq, hsize⟩ := setitem_mirrors (get?_eq_none.mp hk) v fuel u _ hset
      exact ⟨none, c', bind_ok (fun _ => pure none) hc', heq, hsize⟩

end LRUCache

open LRUCache

structure MultiModalItem (κ ν : Type) where
  hash : κ
  offset : Nat
  data : ν

/-- `mm_hashes` and the data, modality by modality; `rejected` where validation fails after the
items have been processed. -/
structure MultiModalRequest (κ ν : Type) where
  modalities : List (List (MultiModalItem κ ν))
  rejected : Bool

/-- A feature as it is sent: the key, and the data unless the sender found it cached. -/
abbrev Features (κ ν : Type) := List (κ × Option ν)

variable {κ ν : Type} [DecidableEq κ]

def MultiModalRequest.items (r : MultiModalRequest κ ν) : List (MultiModalItem κ ν) :=
  r.modalities.flatten

def missingItems (size : ν → Nat) (keys : List κ) (items : List (MultiModalItem κ ν)) :
    List (κ × Option Nat) :=
  items.map fun i => (i.hash, if i.hash ∈ keys then none else some (size i.data))

def replies (items : List (MultiModalItem κ ν)) (cached : List (Option Nat)) : List (Option ν) :=
  List.zipWith (fun i c => if c.isSome then none else some i.data) items cached

def mergeMmKwargs [ToString κ] (size : ν → Nat) (fuel : Nat) (items : List (MultiModalItem κ ν)) :
    Call (LRUCache κ Nat) (List (Option ν)) := fun s => (do
  let cached ← updateRequest fuel (missingItems size s.keys items)
  return replies items cached :
    Call (LRUCache κ Nat) (List (Option ν))) s

/-- `argsort_mm_positions` and the features in that order. -/
def sortFeatures (items : List (MultiModalItem κ ν)) (kwargs : List (Option ν)) : Features κ ν :=
  ((items.zip kwargs).insertionSort (fun a b => a.1.offset ≤ b.1.offset)).map
    fun f => (f.1.hash, f.2)

def getAndUpdateFeatures [ToString κ] (fuel : Nat) (features : Features κ ν) :
    Call (LRUCache κ ν) (Features κ ν) := do
  let cached ← updateRequest fuel features
  return List.zipWith (fun f c => (f.1, c.or f.2)) features cached

structure CachePair (κ ν : Type) where
  sender : LRUCache κ Nat
  receiver : LRUCache κ ν
  inTransit : List (Features κ ν)
  raised : List PyError

namespace CachePair

def init (capacity : Nat) (size : ν → Nat) : CachePair κ ν :=
  ⟨.init capacity id, .init capacity size, [], []⟩

inductive Event (κ ν : Type) where
  | submit (request : MultiModalRequest κ ν)
  | deliver

def Event.size : Event κ ν → Nat
  | .submit request => request.items.length
  | .deliver => 0

def next [ToString κ] (size : ν → Nat) (fuel : Nat) (p : CachePair κ ν) :
    Event κ ν → Except Unit (CachePair κ ν)
  | .submit request =>
    match mergeMmKwargs size fuel request.items p.sender with
    | none => .error ()
    | some (.error _, sender) => .ok { p with sender }
    | some (.ok kwargs, sender) =>
      if request.rejected then .ok { p with sender }
      else .ok { p with sender, inTransit := p.inTransit ++ [sortFeatures request.items kwargs] }
  | .deliver =>
    match p.inTransit with
    | [] => .ok p
    | features :: inTransit =>
      match getAndUpdateFeatures fuel features p.receiver with
      | none => .error ()
      | some (.error e, receiver) => .ok { p with receiver, inTransit, raised := p.raised ++ [e] }
      | some (.ok _, receiver) => .ok { p with receiver, inTransit }

/-- No request is rejected, its items fit the cache together, and they stand in the prompt in the
order in which the modalities list them. -/
def InStep (size : ν → Nat) (p : CachePair κ ν) : Event κ ν → Prop
  | .submit request => request.rejected = false ∧
    weight id (p.sender.kept (request.items.map MultiModalItem.hash)) +
      weight id (newItems p.sender.keys (missingItems size p.sender.keys request.items)) ≤
        p.sender.maxsize ∧
    request.items.Pairwise (fun a b => a.offset ≤ b.offset)
  | .deliver => True

instance decidableInStep (size : ν → Nat) (p : CachePair κ ν) :
    ∀ e : Event κ ν, Decidable (p.InStep size e)
  | .submit _ => inferInstanceAs (Decidable (_ ∧ _ ∧ _))
  | .deliver => isTrue trivial

end CachePair

section request
variable {size : ν → Nat} {items : List (MultiModalItem κ ν)} {ks : List κ}

theorem keys_missingItems (size : ν → Nat) (ks : List κ) (items : List (MultiModalItem κ ν)) :
    (missingItems size ks items).map Prod.fst = items.map MultiModalItem.hash := by
  simp [missingItems]

theorem supplied_missingItems (size : ν → Nat) (items : List (MultiModalItem κ ν)) {ks ks' : List κ}
    (hsub : ∀ k ∈ ks, k ∈ ks') : Supplied ks' (missingItems size ks items) := by
  induction items generalizing ks' with
  | nil => trivial
  | cons i items ih =>
    refine ⟨?_, ih fun k hk => mem_cons_of_mem _ (hsub k hk)⟩
    by_cases hi : i.hash ∈ ks
    · exact .inl (hsub _ hi)
    · exact .inr (by simp [hi])

omit [DecidableEq κ] in
theorem sortFeatures_sorted (h : items.Pairwise (fun a b => a.offset ≤ b.offset))
    (kwargs : List (Option ν)) :
    sortFeatures items kwargs = (items.zip kwargs).map fun f => (f.1.hash, f.2) := by
  have hzip : (items.zip kwargs).Pairwise (fun a b => a.1.offset ≤ b.1.offset) := by
    induction items generalizing kwargs with
    | nil => simp
    | cons i items ih =>
      cases kwargs with
      | nil => simp
      | cons v kwargs =>
        rw [pairwise_cons] at h
        refine pairwise_cons.mpr ⟨fun f hf => h.1 _ (of_mem_zip hf).1, ih h.2 kwargs⟩
  rw [sortFeatures, hzip.insertionSort_eq]

variable [ToString κ] {fuel : Nat} {c : LRUCache κ ν} {cached : List (Option Nat)}
  {s : LRUCache κ Nat}

theorem updateItems_mirrors (ks : List κ)
    (hs : updateItems fuel (missingItems c.getsizeof ks items) c.sizes = some (.ok cached, s)) :
    cached.length = items.length ∧ ∃ r c',
      updateItems fuel ((items.zip (replies items cached)).map fun f => (f.1.hash, f.2)) c =
        some (.ok r, c') ∧ c'.sizes = s ∧ c'.getsizeof = c.getsizeof := by
  induction items generalizing c cached with
  | nil =>
    obtain ⟨hcached, rfl⟩ := Prod.mk.inj (Option.some.inj hs)
    cases hcached
    exact ⟨rfl, [], c, rfl, rfl, rfl⟩
  | cons i items ih =>
    obtain ⟨one, mid, hone, hs⟩ := bind_eq_ok.mp hs
    obtain ⟨more, mid', hmore, hs⟩ := bind_eq_ok.mp hs
    obtain ⟨hcached, rfl⟩ := Prod.mk.inj (Option.some.inj hs)
    cases hcached
    obtain ⟨r, c1, hc1, rfl, hsize⟩ := getAndUpdateItem_mirrors (v := i.data) (fun n hn => by
      split at hn
      · cases hn
      · exact (Option.some.inj hn).symm) hone
    rw [← hsize] at hmore
    obtain ⟨hlen, rs, c', hc', heq, hsize'⟩ := ih hmore
    refine ⟨by simp [hlen], r :: rs, c', ?_, heq, hsize'.trans hsize⟩
    rw [replies, zipWith_cons_cons, zip_cons_cons, map_cons, updateItems, bind_ok _ hc1]
    exact bind_ok _ hc'

theorem updateRequest_mirrors (ks : List κ)
    (hs : updateRequest fuel (missingItems c.getsizeof ks items) c.sizes = some (.ok cached, s)) :
    ∃ r c', getAndUpdateFeatures fuel ((items.zip (replies items cached)).map fun f =>
        (f.1.hash, f.2)) c = some (.ok r, c') ∧ c'.sizes = s ∧ c'.getsizeof = c.getsizeof := by
  set touched := (items.map MultiModalItem.hash).foldl touch c with htouched
  have hsize : touched.getsizeof = c.getsizeof := by
    obtain ⟨mine, heq, -⟩ := touches_eq c (items.map MultiModalItem.hash)
    rw [htouched, heq]
  have hitems : updateItems fuel (missingItems touched.getsizeof ks items) touched.sizes =
      some (.ok cached, s) := by
    rw [hsize, touches_sizes, ← keys_missingItems c.getsizeof ks items]
    exact hs
  obtain ⟨hlen, r, c', hc', heq, hsize'⟩ := updateItems_mirrors ks hitems
  have hkeys : ((items.zip (replies items cached)).map fun f => (f.1.hash, f.2)).map Prod.fst =
      items.map MultiModalItem.hash := by
    have hfst : (items.zip (replies items cached)).map Prod.fst = items :=
      map_fst_zip (by simp [replies, hlen])
    conv_rhs => rw [← hfst]
    simp [Function.comp_def]
  have hreq : updateRequest fuel ((items.zip (replies items cached)).map fun f =>
      (f.1.hash, f.2)) c = some (.ok r, c') := by
    rw [updateRequest, hkeys]
    exact hc'
  unfold getAndUpdateFeatures
  rw [bind_ok _ hreq]
  exact ⟨_, c', rfl, heq, hsize'.trans hsize⟩

end request

namespace CachePair
variable [ToString κ] {size : ν → Nat} {fuel : Nat} {p p' : CachePair κ ν}

/-- The receiver after all that is in transit, where nothing raises. -/
def replay (fuel : Nat) : List (Features κ ν) → LRUCache κ ν → Option (LRUCache κ ν)
  | [], c => some c
  | features :: inTransit, c =>
    match getAndUpdateFeatures fuel features c with
    | some (.ok _, c) => replay fuel inTransit c
    | _ => none

theorem replay_append {fs fs' : List (Features κ ν)} {c c' : LRUCache κ ν}
    (h : replay fuel fs c = some c') : replay fuel (fs ++ fs') c = replay fuel fs' c' := by
  induction fs generalizing c with
  | nil => rw [← Option.some.inj h]; rfl
  | cons f fs ih =>
    rw [replay] at h
    rw [cons_append, replay]
    split at h
    · exact ih h
    · cases h

/-- What is in transit brings the receiver to the sender's state. -/
structure Mirrored (size : ν → Nat) (fuel : Nat) (p : CachePair κ ν) : Prop where
  sound : p.sender.Sound
  replays : ∃ c, replay fuel p.inTransit p.receiver = some c ∧ c.sizes = p.sender ∧
    c.getsizeof = size
  raised : p.raised = []

section
variable (h : p.Mirrored size fuel)
include h

theorem Mirrored.submit {r : MultiModalRequest κ ν}
    (hstep : p.InStep size (.submit r)) (hfuel : p.sender.data.length + r.items.length < fuel) :
    ∃ p', next size fuel p (.submit r) = .ok p' ∧ p'.Mirrored size fuel ∧
      p'.sender.data.length ≤ p.sender.data.length + r.items.length := by
  obtain ⟨hacc, hfits, hsorted⟩ := hstep
  obtain ⟨c, hreplay, hsizes, rfl⟩ := h.replays
  have hid : p.sender.getsizeof = id := by rw [← hsizes]; rfl
  set items := missingItems c.getsizeof p.sender.keys r.items with hitems
  have hlen : items.length = r.items.length := by simp [hitems, missingItems]
  have hf : p.sender.Fits (.request (items ++ [])) := by
    rw [append_nil]
    refine ⟨supplied_missingItems _ _ fun _ => id, ?_⟩
    rw [hid, keys_missingItems]
    exact hfits
  obtain ⟨cached, s, hs, hmid, hgrows⟩ := h.sound.updateRequest hf (by rwa [hlen])
  rw [append_nil] at hs
  rw [hlen] at hgrows
  have hmerge : mergeMmKwargs c.getsizeof fuel r.items p.sender =
      some (.ok (replies r.items cached), s) := bind_ok (fun c => pure (replies r.items c)) hs
  have hreq : updateRequest fuel items c.sizes = some (.ok cached, s) := by rw [hsizes]; exact hs
  obtain ⟨_, c', hc', heq, hsize'⟩ := updateRequest_mirrors p.sender.keys hreq
  refine ⟨{ p with sender := s, inTransit := p.inTransit ++
    [sortFeatures r.items (replies r.items cached)] }, ?_, ⟨hmid.sound, ⟨c', ?_, heq, hsize'⟩,
    h.raised⟩, hgrows.length⟩
  · simp only [next, hmerge, hacc, Bool.false_eq_true, if_false]
  · rw [replay_append hreplay, sortFeatures_sorted hsorted]
    simp only [replay, hc']

theorem Mirrored.deliver :
    ∃ p', next size fuel p .deliver = .ok p' ∧ p'.Mirrored size fuel ∧ p'.sender = p.sender := by
  obtain ⟨c, hreplay, hc⟩ := h.replays
  cases hq : p.inTransit with
  | nil => exact ⟨p, by simp only [next, hq], h, rfl⟩
  | cons f rest =>
    rw [hq, replay] at hreplay
    split at hreplay
    · rename_i kwargs r hr
      refine ⟨{ p with receiver := r, inTransit := rest }, ?_, ⟨h.sound, ⟨c, hreplay, hc⟩,
        h.raised⟩, rfl⟩
      simp only [next, hq, hr]
    · cases hreplay

theorem Mirrored.run {events : List (Event κ ν)}
    (hfuel : p.sender.data.length + (events.map Event.size).sum < fuel)
    (hstep : Trace.Meets (next size fuel) (InStep size) p events) :
    ∃ p', Trace.run (next size fuel) p events = .ok p' ∧ p'.Mirrored size fuel := by
  induction events generalizing p with
  | nil => exact ⟨p, rfl, h⟩
  | cons e events ih =>
    rw [map_cons, sum_cons] at hfuel
    obtain ⟨p1, hp1, hmir, hlen⟩ : ∃ p1, next size fuel p e = .ok p1 ∧ p1.Mirrored size fuel ∧
        p1.sender.data.length ≤ p.sender.data.length + e.size := by
      cases e with
      | submit r => exact h.submit hstep.1 (by simp only [Event.size] at hfuel; omega)
      | deliver =>
        obtain ⟨p1, hp1, hmir, heq⟩ := h.deliver
        exact ⟨p1, hp1, hmir, by rw [heq]; exact Nat.le_add_right _ _⟩
    obtain ⟨p', hp', hmir'⟩ := ih hmir (by omega) (hstep.2 p1 hp1)
    exact ⟨p', by rw [Trace.run, hp1]; exact hp', hmir'⟩

end

def raises : Except Unit (CachePair κ ν) → List PyError
  | .ok p => p.raised
  | .error () => []

end CachePair

end TailBlend
