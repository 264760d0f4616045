import TailBlend.CachePolicy
import TailBlend.Lib.Trace

/-! The manager of the CPU cache: its slots, the blocks the policy holds in them, and the loads and
stores under way. -/
namespace TailBlend
open OrderedDict List

structure OffloadingEvent (κ : Type) where
  keys : List κ
  medium : String
  removed : Bool
  deriving DecidableEq

structure CPUOffloadingManager (κ : Type) where
  numBlocks : Nat
  numAllocatedBlocks : Nat
  freeList : List Nat
  /-- `None` when events are off. -/
  events : Option (List (OffloadingEvent κ))
  policy : CachePolicy κ
  deriving DecidableEq

structure PrepareStoreOutput (κ : Type) where
  keysToStore : List κ
  storeSpec : List Nat
  evictedKeys : List κ
  deriving DecidableEq

inductive CachePolicyName where
  | lru
  | arc
  deriving DecidableEq

namespace CPUOffloadingManager
variable {κ : Type} [DecidableEq κ]

def newPolicy (numBlocks : Nat) : CachePolicyName → CachePolicy κ
  | .lru => .lru ⟨[]⟩
  | .arc => .arc ⟨numBlocks, 0, [], [], [], []⟩

def init (numBlocks : Nat) (cachePolicy : CachePolicyName) (enableEvents : Bool) :
    CPUOffloadingManager κ where
  numBlocks := numBlocks
  numAllocatedBlocks := 0
  freeList := []
  events := if enableEvents then some [] else none
  policy := newPolicy numBlocks cachePolicy

section
variable (m : CPUOffloadingManager κ)

def getNumFreeBlocks : Int :=
  m.freeList.length + m.numBlocks - m.numAllocatedBlocks

/-- The loops of `_allocate_blocks`: fresh slots first, then slots from the end of the free list. -/
def takeSlots (numFresh numReused : Nat) : List BlockStatus × CPUOffloadingManager κ :=
  ((List.range' m.numAllocatedBlocks numFresh ++ m.freeList.reverse.take numReused).map
      BlockStatus.new,
    { m with
      numAllocatedBlocks := m.numAllocatedBlocks + numFresh
      freeList := m.freeList.take (m.freeList.length - numReused) })

def allocateBlocks (keys : List κ) :
    Except PyError (List BlockStatus × CPUOffloadingManager κ) := do
  let numFresh : Int := min keys.length (m.numBlocks - m.numAllocatedBlocks)
  let numReused : Int := keys.length - numFresh
  pyAssert (numReused ≤ m.freeList.length) ""
  return m.takeSlots numFresh.toNat numReused.toNat

def freeBlock (block : BlockStatus) : CPUOffloadingManager κ :=
  { m with freeList := m.freeList ++ [block.blockId] }

/-- `None` while the block is being written. -/
def lookup (key : κ) : Option Bool :=
  match m.policy.get key with
  | none => some false
  | some block => if block.IsReady then some true else none

def setRefCnt (key : κ) (block : BlockStatus) (refCnt : Int) : CPUOffloadingManager κ :=
  { m with policy := m.policy.assign key { block with refCnt := cInt32 refCnt } }

def prepareLoad [ToString κ] (m : CPUOffloadingManager κ) :
    List κ → Except PyError (List Nat × CPUOffloadingManager κ)
  | [] => .ok ([], m)
  | key :: keys =>
    match m.policy.get key with
    | none => .error (.assertionError s!"Block {key} not found in cache")
    | some block => do
      pyAssert block.IsReady s!"Block {key} is not ready for reading"
      let (ids, m) ← prepareLoad (m.setRefCnt key block (block.refCnt + 1)) keys
      return (block.blockId :: ids, m)

def touch (fl : ℚ → ℚ) (m : CPUOffloadingManager κ) (keys : List κ) : CPUOffloadingManager κ :=
  { m with policy := m.policy.touch fl keys }

def completeLoad [ToString κ] (m : CPUOffloadingManager κ) :
    List κ → Except PyError (CPUOffloadingManager κ)
  | [] => .ok m
  | key :: keys =>
    match m.policy.get key with
    | none => .error (.assertionError s!"Block {key} not found")
    | some block => do
      pyAssert (block.refCnt > 0) s!"Block {key} ref_cnt is already 0"
      completeLoad (m.setRefCnt key block (block.refCnt - 1)) keys

def appendEvent (keys : List κ) (removed : Bool) : CPUOffloadingManager κ :=
  if keys = [] then m else { m with events := m.events.map (· ++ [⟨keys, "CPU", removed⟩]) }

def keysToStore (keys : List κ) : List κ :=
  keys.filter (fun k => m.policy.get k = none)

def makeRoom (keys : List κ) : Option (List κ × CPUOffloadingManager κ) :=
  let numBlocksToEvict : Int := (m.keysToStore keys).length - m.getNumFreeBlocks
  if numBlocksToEvict > 0 then do
    let (evicted, policy) ← m.policy.evict numBlocksToEvict.toNat keys
    return (evicted.map Prod.fst,
      (evicted.map Prod.snd).foldl freeBlock { m with policy := policy })
  else some ([], m)

def insertAll (blocks : List (κ × BlockStatus)) : CPUOffloadingManager κ :=
  { m with policy := blocks.foldl (fun p e => p.insert e.1 e.2) m.policy }

def prepareStore (keys : List κ) :
    Except PyError (Option (PrepareStoreOutput κ) × CPUOffloadingManager κ) :=
  let keysToStore := m.keysToStore keys
  if keysToStore = [] then .ok (some ⟨[], [], []⟩, m)
  else
    match m.makeRoom keys with
    | none => .ok (none, m)
    | some (toEvict, m) => do
      let (blocks, m) ← (m.appendEvent toEvict true).allocateBlocks keysToStore
      pyAssert (blocks.length = keysToStore.length)
        "Block pool did not allocate the expected number of blocks"
      return (some ⟨keysToStore, blocks.map BlockStatus.blockId, toEvict⟩,
        m.insertAll (keysToStore.zip blocks))

def finishStores (m : CPUOffloadingManager κ) : List κ → List κ × CPUOffloadingManager κ
  | [] => ([], m)
  | key :: keys =>
    match m.policy.get key with
    | none => finishStores m keys
    | some block =>
      if block.IsReady then finishStores m keys
      else
        let (stored, m) := finishStores (m.setRefCnt key block 0) keys
        (key :: stored, m)

def dropStores (m : CPUOffloadingManager κ) : List κ → Except PyError (CPUOffloadingManager κ)
  | [] => .ok m
  | key :: keys =>
    match m.policy.get key with
    | none => dropStores m keys
    | some block =>
      if block.IsReady then dropStores m keys
      else do
        let policy ← m.policy.remove key
        dropStores (freeBlock { m with policy := policy } block) keys

def completeStore (keys : List κ) (success : Bool) : Except PyError (CPUOffloadingManager κ) :=
  if success then
    let (stored, m) := m.finishStores keys
    .ok (m.appendEvent stored false)
  else m.dropStores keys

def takeEvents : List (OffloadingEvent κ) × CPUOffloadingManager κ :=
  (m.events.getD [], { m with events := m.events.map (fun _ => []) })

inductive Op (κ : Type) where
  | lookup (key : κ)
  | touch (keys : List κ)
  | prepareLoad (keys : List κ)
  | completeLoad (keys : List κ)
  | prepareStore (keys : List κ)
  | completeStore (keys : List κ) (success : Bool)
  | takeEvents
  deriving DecidableEq

def step [ToString κ] (fl : ℚ → ℚ) (m : CPUOffloadingManager κ) :
    Op κ → Except PyError (CPUOffloadingManager κ)
  | .lookup _ => .ok m
  | .touch keys => .ok (m.touch fl keys)
  | .prepareLoad keys => do
    let (_, m) ← m.prepareLoad keys
    return m
  | .completeLoad keys => m.completeLoad keys
  | .prepareStore keys => do
    let (_, m) ← m.prepareStore keys
    return m
  | .completeStore keys success => m.completeStore keys success
  | .takeEvents => .ok m.takeEvents.2

def unallocated : List Nat :=
  List.range' m.numAllocatedBlocks (m.numBlocks - m.numAllocatedBlocks)

end

structure Allocates (m m' : CPUOffloadingManager κ) (n : Nat) (blocks : List BlockStatus) :
    Prop where
  length : blocks.length = n
  fresh : ∀ b ∈ blocks, b.refCnt = -1
  policy : m'.policy = m.policy
  numBlocks : m'.numBlocks = m.numBlocks
  le : m'.numAllocatedBlocks ≤ m'.numBlocks
  slots : (blocks.map BlockStatus.blockId ++ (m'.freeList ++ m'.unallocated)).Perm
    (m.freeList ++ m.unallocated)

section
omit [DecidableEq κ]

variable {m : CPUOffloadingManager κ}

theorem takeSlots_spec {f r : Nat}
    (hf : m.numAllocatedBlocks + f ≤ m.numBlocks) (hr : r ≤ m.freeList.length) :
    m.Allocates (m.takeSlots f r).2 (f + r) (m.takeSlots f r).1 := by
  refine ⟨?_, ?_, rfl, rfl, hf, ?_⟩
  · simp only [takeSlots, length_map, length_append, length_range', length_take, length_reverse]
    omega
  · intro b hb
    obtain ⟨i, -, rfl⟩ := mem_map.mp hb
    rfl
  have hids : (m.takeSlots f r).1.map BlockStatus.blockId =
      range' m.numAllocatedBlocks f ++ m.freeList.reverse.take r := by
    rw [takeSlots, map_map]
    exact map_id _
  have hsplit : m.unallocated = range' m.numAllocatedBlocks f ++
      (m.takeSlots f r).2.unallocated := by
    simp only [unallocated, takeSlots]
    rw [range'_append_1]
    congr 1
    omega
  have hfree : (m.freeList.reverse.take r ++ m.freeList.take (m.freeList.length - r)).Perm
      m.freeList := by
    rw [take_reverse]
    conv_rhs => rw [← take_append_drop (m.freeList.length - r) m.freeList]
    exact ((reverse_perm _).append_right _).trans perm_append_comm
  rw [hids, hsplit, append_assoc]
  refine Perm.trans ?_ (perm_append_comm_assoc _ _ _)
  refine Perm.append_left _ ?_
  rw [← append_assoc]
  exact hfree.append_right _

theorem allocateBlocks_ok (hle : m.numAllocatedBlocks ≤ m.numBlocks)
    {keys : List κ} (hroom : (keys.length : Int) ≤ m.getNumFreeBlocks) :
    ∃ blocks m', m.allocateBlocks keys = .ok (blocks, m') ∧ m.Allocates m' keys.length blocks := by
  unfold getNumFreeBlocks at hroom
  obtain ⟨f, hf⟩ : ∃ f : Nat,
      (min (keys.length : Int) (m.numBlocks - m.numAllocatedBlocks)) = f :=
    ⟨min keys.length (m.numBlocks - m.numAllocatedBlocks), by omega⟩
  obtain ⟨r, hr⟩ : ∃ r : Nat, (keys.length : Int) - f = r := ⟨keys.length - f, by omega⟩
  have hrlen : r ≤ m.freeList.length := by omega
  have hspec := takeSlots_spec (m := m) (f := f) (by omega) hrlen
  rw [show f + r = keys.length by omega] at hspec
  refine ⟨(m.takeSlots f r).1, (m.takeSlots f r).2, ?_, hspec⟩
  simp only [allocateBlocks, hf, hr, seq_ok_iff, pyAssert_eq_ok]
  exact ⟨(), by exact_mod_cast hrlen, rfl⟩

def numToEvict (m : CPUOffloadingManager κ) (keys : List κ) : Nat :=
  ((m.keysToStore keys).length - m.getNumFreeBlocks).toNat

theorem foldl_freeBlock (m : CPUOffloadingManager κ) (blocks : List BlockStatus) :
    blocks.foldl freeBlock m =
      { m with freeList := m.freeList ++ blocks.map BlockStatus.blockId } := by
  induction blocks generalizing m with
  | nil => simp
  | cons b blocks ih => simp [ih, freeBlock]

end

theorem makeRoom_eq (m : CPUOffloadingManager κ) (keys : List κ) :
    m.makeRoom keys = (m.policy.evict (m.numToEvict keys) keys).map (fun r =>
      (r.1.map Prod.fst, { m with
        policy := r.2
        freeList := m.freeList ++ r.1.map (fun e => e.2.blockId) })) := by
  unfold makeRoom
  dsimp only
  split_ifs with h
  · change (m.policy.evict (m.numToEvict keys) keys).bind _ = _
    rw [Option.map_eq_bind]
    simp [foldl_freeBlock, Function.comp_def]
  · have hzero : m.numToEvict keys = 0 := by
      unfold numToEvict
      omega
    simp [hzero, CachePolicy.evict_zero]

omit [DecidableEq κ] in
theorem appendEvent_eq (m : CPUOffloadingManager κ) (keys : List κ) (removed : Bool) :
    ∃ events, m.appendEvent keys removed = { m with events := events } := by
  unfold appendEvent
  split_ifs
  · exact ⟨m.events, rfl⟩
  · exact ⟨_, rfl⟩

/-- What a successful `prepare_store(keys)` does: the policy evicts, then takes the new keys. -/
structure Stores (m m' : CPUOffloadingManager κ) (keys : List κ)
    (evicted : List (κ × BlockStatus)) (policy : CachePolicy κ) (blocks : List BlockStatus) :
    Prop where
  evict : m.policy.evict (m.numToEvict keys) keys = some (evicted, policy)
  length : blocks.length = (m.keysToStore keys).length
  fresh : ∀ b ∈ blocks, b.refCnt = -1
  numBlocks : m'.numBlocks = m.numBlocks
  le : m'.numAllocatedBlocks ≤ m'.numBlocks
  slots : (blocks.map BlockStatus.blockId ++ (m'.freeList ++ m'.unallocated)).Perm
    (evicted.map (fun e => e.2.blockId) ++ (m.freeList ++ m.unallocated))
  policy : m'.policy = ((m.keysToStore keys).zip blocks).foldl (fun p e => p.insert e.1 e.2) policy

theorem prepareStore_cases {m : CPUOffloadingManager κ} (hk : m.policy.keys.Nodup)
    (hle : m.numAllocatedBlocks ≤ m.numBlocks) (keys : List κ) :
    (m.keysToStore keys = [] ∧ m.prepareStore keys = .ok (some ⟨[], [], []⟩, m)) ∨
      (m.policy.reach keys < m.numToEvict keys ∧ m.prepareStore keys = .ok (none, m)) ∨
      (m.keysToStore keys ≠ [] ∧ m.numToEvict keys ≤ m.policy.reach keys ∧
        ∃ evicted policy blocks m', m.Stores m' keys evicted policy blocks ∧
          m.prepareStore keys = .ok (some ⟨m.keysToStore keys, blocks.map BlockStatus.blockId,
            evicted.map Prod.fst⟩, m')) := by
  by_cases hnew : m.keysToStore keys = []
  · exact .inl ⟨hnew, if_pos hnew⟩
  cases hevict : m.policy.evict (m.numToEvict keys) keys with
  | none =>
    refine .inr (.inl ⟨(CachePolicy.evict_eq_none_iff hk _ keys).mp hevict, ?_⟩)
    unfold prepareStore
    rw [if_neg hnew, makeRoom_eq, hevict]
    rfl
  | some r =>
    obtain ⟨evicted, policy⟩ := r
    have hreach : ¬ m.policy.reach keys < m.numToEvict keys := by
      rw [← CachePolicy.evict_eq_none_iff hk, hevict]
      simp
    refine .inr (.inr ⟨hnew, not_lt.mp hreach, evicted, policy, ?_⟩)
    have hlen : evicted.length = m.numToEvict keys := (CachePolicy.evict_some hk hevict).length
    let freed : CPUOffloadingManager κ :=
      { m with policy := policy, freeList := m.freeList ++ evicted.map (fun e => e.2.blockId) }
    obtain ⟨events, hevents⟩ := freed.appendEvent_eq (evicted.map Prod.fst) true
    have hroom : ((m.keysToStore keys).length : Int) ≤
        ({ freed with events := events } : CPUOffloadingManager κ).getNumFreeBlocks := by
      simp only [getNumFreeBlocks, freed, length_append, length_map, hlen, numToEvict]
      omega
    obtain ⟨blocks, mid, halloc, hspec⟩ :=
      allocateBlocks_ok (m := { freed with events := events }) hle hroom
    refine ⟨blocks, mid.insertAll ((m.keysToStore keys).zip blocks), ?_, ?_⟩
    · refine ⟨hevict, hspec.length, hspec.fresh, hspec.numBlocks, hspec.le, ?_, ?_⟩
      · refine hspec.slots.trans ?_
        rw [append_assoc]
        exact perm_append_comm_assoc _ _ _
      · rw [insertAll, hspec.policy]
    unfold prepareStore
    rw [if_neg hnew, makeRoom_eq, hevict]
    simp only [Option.map_some]
    rw [hevents, halloc]
    simp only [bind, Except.bind, hspec.length]
    rfl

structure SameSlots (m m' : CPUOffloadingManager κ) : Prop where
  numBlocks : m'.numBlocks = m.numBlocks
  numAllocatedBlocks : m'.numAllocatedBlocks = m.numAllocatedBlocks
  freeList : m'.freeList = m.freeList
  blocks : (m'.policy.entries.map (fun e => (e.1, e.2.blockId))).Perm
    (m.policy.entries.map (fun e => (e.1, e.2.blockId)))

namespace SameSlots
variable {m m' m'' : CPUOffloadingManager κ}

section
omit [DecidableEq κ]

theorem refl (m : CPUOffloadingManager κ) : m.SameSlots m := ⟨rfl, rfl, rfl, Perm.refl _⟩

theorem trans (h : m.SameSlots m') (h' : m'.SameSlots m'') : m.SameSlots m'' :=
  ⟨h'.numBlocks.trans h.numBlocks, h'.numAllocatedBlocks.trans h.numAllocatedBlocks,
    h'.freeList.trans h.freeList, h'.blocks.trans h.blocks⟩

theorem keys (h : m.SameSlots m') : m'.policy.keys.Perm m.policy.keys := by
  have hmap := h.blocks.map Prod.fst
  simpa [CachePolicy.keys, Function.comp_def] using hmap

theorem ids (h : m.SameSlots m') : (m'.policy.entries.map (fun e => e.2.blockId)).Perm
    (m.policy.entries.map (fun e => e.2.blockId)) := by
  have hmap := h.blocks.map Prod.snd
  simpa [Function.comp_def] using hmap

end

end SameSlots

variable {m m' : CPUOffloadingManager κ} {keys : List κ} {block : BlockStatus}

theorem setRefCnt_sameSlots (hk : m.policy.keys.Nodup) {key : κ}
    (hget : m.policy.get key = some block) (c : Int) :
    m.SameSlots (m.setRefCnt key block c) := by
  have hmem := CachePolicy.mem_keys_of_get hget
  have hset : set m.policy.entries key { block with refCnt := cInt32 c } =
      m.policy.entries.map
        (fun e => if e.1 = key then (key, { block with refCnt := cInt32 c }) else e) := if_pos hmem
  refine ⟨rfl, rfl, rfl, ?_⟩
  rw [setRefCnt, CachePolicy.entries_assign hk hmem, hset, map_map]
  refine Perm.of_eq (map_congr_left fun e he => ?_)
  simp only [Function.comp_apply]
  split_ifs with heq
  · obtain rfl : e = (key, block) :=
      inj_on_of_nodup_map hk he ((CachePolicy.mem_entries_iff hk).mpr hget) heq
    rfl
  · rfl

theorem get_setRefCnt (hk : m.policy.keys.Nodup) {key : κ} (hget : m.policy.get key = some block)
    (c : Int) (k : κ) :
    (m.setRefCnt key block c).policy.get k =
      if k = key then some { block with refCnt := cInt32 c } else m.policy.get k := by
  rw [CachePolicy.get_eq, setRefCnt,
    CachePolicy.entries_assign hk (CachePolicy.mem_keys_of_get hget), get?_set,
    CachePolicy.get_eq]

theorem touch_sameSlots (fl : ℚ → ℚ) (hk : m.policy.keys.Nodup)
    (keys : List κ) : m.SameSlots (m.touch fl keys) :=
  ⟨rfl, rfl, rfl, (CachePolicy.entries_touch fl hk keys).map _⟩

theorem prepareLoad_sameSlots [ToString κ]
    (hk : m.policy.keys.Nodup) {ids : List Nat}
    (h : m.prepareLoad keys = .ok (ids, m')) : m.SameSlots m' := by
  induction keys generalizing m ids with
  | nil =>
    obtain ⟨-, rfl⟩ := Prod.mk.inj (Except.ok.inj h)
    exact .refl m
  | cons key keys ih =>
    rw [prepareLoad] at h
    cases hget : m.policy.get key with
    | none => simp [hget] at h
    | some block =>
      simp only [hget, seq_ok_iff] at h
      obtain ⟨-, -, r, hr, hout⟩ := h
      obtain ⟨-, rfl⟩ := Prod.mk.inj (Except.ok.inj hout)
      have hstep := setRefCnt_sameSlots hk hget (block.refCnt + 1)
      exact hstep.trans (ih (hstep.keys.nodup_iff.mpr hk) hr)

theorem completeLoad_sameSlots [ToString κ]
    (hk : m.policy.keys.Nodup) (h : m.completeLoad keys = .ok m') :
    m.SameSlots m' := by
  induction keys generalizing m with
  | nil =>
    obtain rfl := Except.ok.inj h
    exact .refl m
  | cons key keys ih =>
    rw [completeLoad] at h
    cases hget : m.policy.get key with
    | none => simp [hget] at h
    | some block =>
      simp only [hget, seq_ok_iff] at h
      obtain ⟨-, -, hrest⟩ := h
      have hstep := setRefCnt_sameSlots hk hget (block.refCnt - 1)
      exact hstep.trans (ih (hstep.keys.nodup_iff.mpr hk) hrest)

theorem finishStores_sameSlots (hk : m.policy.keys.Nodup)
    (keys : List κ) : m.SameSlots (m.finishStores keys).2 := by
  induction keys generalizing m with
  | nil => exact .refl m
  | cons key keys ih =>
    rw [finishStores]
    cases hget : m.policy.get key with
    | none => exact ih hk
    | some block =>
      dsimp only
      split_ifs
      · exact ih hk
      · have hstep := setRefCnt_sameSlots hk hget 0
        exact hstep.trans (ih (hstep.keys.nodup_iff.mpr hk))

/-- Resident keys are unique and no slot beyond the last one was handed out. -/
structure WellFormed (m : CPUOffloadingManager κ) : Prop where
  keys : m.policy.keys.Nodup
  le : m.numAllocatedBlocks ≤ m.numBlocks

omit [DecidableEq κ] in
theorem WellFormed.of_sameSlots (h : m.WellFormed) (hs : m.SameSlots m') : m'.WellFormed := by
  refine ⟨hs.keys.nodup_iff.mpr h.keys, ?_⟩
  rw [hs.numAllocatedBlocks, hs.numBlocks]
  exact h.le

theorem dropStores_wellFormed (hm : m.WellFormed)
    (h : m.dropStores keys = .ok m') : m'.WellFormed := by
  induction keys generalizing m with
  | nil =>
    cases h
    exact hm
  | cons key keys ih =>
    rw [dropStores] at h
    cases hget : m.policy.get key with
    | none => exact ih hm (by simpa [hget] using h)
    | some block =>
      simp only [hget] at h
      split_ifs at h with hready
      · exact ih hm h
      rw [seq_ok_iff] at h
      obtain ⟨policy, hpolicy, hrest⟩ := h
      obtain ⟨p', hp', hentries⟩ := CachePolicy.remove_ok hm.keys (CachePolicy.mem_keys_of_get hget)
      obtain rfl : p' = policy := Except.ok.inj (hp'.symm.trans hpolicy)
      have hkeys : p'.keys.Nodup := by
        unfold CachePolicy.keys
        rw [hentries]
        exact nodup_keys_erase hm.keys key
      exact ih (m := freeBlock { m with policy := p' } block) ⟨hkeys, hm.le⟩ hrest

theorem Stores.wellFormed (hm : m.WellFormed)
    {evicted : List (κ × BlockStatus)} {policy : CachePolicy κ} {blocks : List BlockStatus}
    (h : m.Stores m' keys evicted policy blocks) : m'.WellFormed := by
  have hev := CachePolicy.evict_some hm.keys h.evict
  refine ⟨?_, h.le⟩
  rw [h.policy]
  refine CachePolicy.nodup_keys_insertAll (hev.nodup_keys hm.keys) _ fun e he hfreq => ?_
  have hkey : e.1 ∈ m.keysToStore keys := (of_mem_zip he).1
  have hold := ((hev.mem_keys e.1).mp (policy.frequent_subset hfreq)).1
  have hnone : m.policy.get e.1 = none := by simpa using (mem_filter.mp hkey).2
  exact CachePolicy.get_eq_none.mp hnone hold

theorem prepareStore_wellFormed (hm : m.WellFormed)
    {out : Option (PrepareStoreOutput κ)}
    (h : m.prepareStore keys = .ok (out, m')) : m'.WellFormed := by
  rcases prepareStore_cases hm.keys hm.le keys with
    ⟨-, hp⟩ | ⟨-, hp⟩ | ⟨-, -, evicted, policy, blocks, mid, hstores, hp⟩
  · obtain ⟨-, rfl⟩ := Prod.mk.inj (Except.ok.inj (hp.symm.trans h))
    exact hm
  · obtain ⟨-, rfl⟩ := Prod.mk.inj (Except.ok.inj (hp.symm.trans h))
    exact hm
  · obtain ⟨-, rfl⟩ := Prod.mk.inj (Except.ok.inj (hp.symm.trans h))
    exact hstores.wellFormed hm

theorem step_wellFormed [ToString κ] (fl : ℚ → ℚ)
    (hm : m.WellFormed) {op : Op κ} (h : m.step fl op = .ok m') : m'.WellFormed := by
  cases op with
  | lookup key =>
    cases h
    exact hm
  | touch keys =>
    cases h
    exact hm.of_sameSlots (touch_sameSlots fl hm.keys keys)
  | prepareLoad keys =>
    simp only [step, seq_ok_iff] at h
    obtain ⟨r, hr, hout⟩ := h
    cases hout
    exact hm.of_sameSlots (prepareLoad_sameSlots hm.keys hr)
  | completeLoad keys => exact hm.of_sameSlots (completeLoad_sameSlots hm.keys h)
  | prepareStore keys =>
    simp only [step, seq_ok_iff] at h
    obtain ⟨r, hr, hout⟩ := h
    cases hout
    exact prepareStore_wellFormed hm hr
  | completeStore keys success =>
    simp only [step, completeStore] at h
    split_ifs at h
    · cases h
      obtain ⟨events, hevents⟩ :=
        (m.finishStores keys).2.appendEvent_eq (m.finishStores keys).1 false
      rw [hevents]
      have hfinish := hm.of_sameSlots (finishStores_sameSlots hm.keys keys)
      exact ⟨hfinish.keys, hfinish.le⟩
    · exact dropStores_wellFormed hm h
  | takeEvents =>
    cases h
    exact ⟨hm.keys, hm.le⟩

end CPUOffloadingManager

end TailBlend
