import TailBlend.CpuOffload
import Mathlib.Data.List.Count
import Mathlib.Data.List.Sigma

/-! What holds along every run of the CPU cache manager: when a store finds no room, and that slots
are neither lost nor shared. -/
namespace TailBlend.CPUOffloadingManager
open OrderedDict
open List hiding keys
open CachePolicy
variable {κ : Type} [DecidableEq κ]

/-- `prepare_store(keys)` returns, fails exactly when the new keys outnumber the free and the
evictable blocks, changes nothing then, and otherwise evicts only such blocks and only as many as
needed. -/
def FailsForRoomOnly (m : CPUOffloadingManager κ) (keys : List κ) : Prop :=
  ∃ out m', m.prepareStore keys = .ok (out, m') ∧
    (out = none ↔
      m.getNumFreeBlocks + (m.policy.evictable keys).length < (m.keysToStore keys).length) ∧
    (out = none → m' = m) ∧
    ∀ o, out = some o → o.evictedKeys.Nodup ∧
      (∀ k ∈ o.evictedKeys, k ∈ (m.policy.evictable keys).map Prod.fst) ∧
      (o.evictedKeys.length : Int) = max 0 ((m.keysToStore keys).length - m.getNumFreeBlocks) ∧
      ∀ k, k ∈ o.evictedKeys ↔ k ∈ m.policy.keys ∧ k ∉ m'.policy.keys

/-- ARC can take the blocks it needs: those of `t1` down to one below the target, and those of
`t2`; or even all evictable blocks are too few. -/
def ARCReaches (m : CPUOffloadingManager κ) (p : ARCCachePolicy κ) (keys : List κ) : Prop :=
  let needed : Int := (m.keysToStore keys).length - m.getNumFreeBlocks
  let inT1 : Int := (p.t1.filter (fun e => Evictable keys e)).length
  let inT2 : Int := (p.t2.filter (fun e => Evictable keys e)).length
  needed ≤ min inT1 (max 0 (p.t1.length + 1 - pyInt p.targetT1Size)) + inT2 ∨
    inT1 + inT2 < needed

/-- The policy is LRU, or ARC and its target leaves enough of `t1` open. -/
def Reaches (m : CPUOffloadingManager κ) (keys : List κ) : Prop :=
  ∀ p, m.policy = .arc p → m.ARCReaches p keys

variable {m : CPUOffloadingManager κ}

omit [DecidableEq κ] in
theorem WellFormed.free_nonneg (h : m.WellFormed) : 0 ≤ m.getNumFreeBlocks := by
  have := h.le
  unfold getNumFreeBlocks
  omega

theorem reaches_iff (hm : m.WellFormed) (keys : List κ) :
    m.Reaches keys ↔
      (m.policy.reach keys < m.numToEvict keys →
        (m.policy.evictable keys).length < m.numToEvict keys) := by
  have hfree := hm.free_nonneg
  have hnum : (m.numToEvict keys : Int) =
      max 0 ((m.keysToStore keys).length - m.getNumFreeBlocks) := by
    unfold numToEvict
    omega
  cases hp : m.policy with
  | lru p => simp [Reaches, hp, reach]
  | arc p =>
    have hreaches : m.Reaches keys ↔ m.ARCReaches p keys :=
      ⟨fun h => h p hp, fun h q hq => by
        obtain rfl : p = q := arc.inj (hp.symm.trans hq)
        exact h⟩
    rw [hreaches]
    simp only [ARCReaches, reach, ARCCachePolicy.rounds, evictable,
      entries, ARCCachePolicy.entries, ARCCachePolicy.candidates, not_mem_nil,
      not_false_eq_true, and_true, filter_append, length_append]
    omega

/-- A store fails for lack of room only, exactly when the policy is LRU or ARC's target does not
close blocks of `t1` that are needed. -/
theorem failsForRoomOnly_iff (hm : m.WellFormed) (keys : List κ) :
    m.FailsForRoomOnly keys ↔ m.Reaches keys := by
  have hfree := hm.free_nonneg
  have hnum : (m.numToEvict keys : Int) =
      max 0 ((m.keysToStore keys).length - m.getNumFreeBlocks) := by
    unfold numToEvict
    omega
  have hle := reach_le (p := m.policy) keys
  rw [reaches_iff hm]
  rcases prepareStore_cases hm.keys hm.le keys with
    ⟨hnew, hp⟩ | ⟨hreach, hp⟩ | ⟨hnew, hreach, evicted, policy, blocks, mid, hstores, hp⟩
  · have hnum0 : m.numToEvict keys = 0 := by
      simp [numToEvict, hnew, hfree]
    refine ⟨fun _ => by omega, fun _ => ⟨_, _, hp, ?_, by simp, ?_⟩⟩
    · simp only [reduceCtorEq, false_iff]
      omega
    · rintro o ho
      cases ho
      simp [hnew, hfree]
  · constructor
    · rintro ⟨out, m', hout, hiff, -, -⟩ -
      obtain ⟨rfl, rfl⟩ := Prod.mk.inj (Except.ok.inj (hp.symm.trans hout))
      have := hiff.mp rfl
      omega
    · intro h
      refine ⟨none, m, hp, ⟨fun _ => by omega, fun _ => rfl⟩, fun _ => rfl, by simp⟩
  · refine ⟨fun _ => by omega, fun _ => ⟨_, _, hp, ?_, by simp, ?_⟩⟩
    · simp only [reduceCtorEq, false_iff]
      omega
    rintro o ho
    cases ho
    have hev := evict_some hm.keys hstores.evict
    refine ⟨hev.nodup, fun k hk => ?_, ?_, fun k => ?_⟩
    · obtain ⟨e, he, rfl⟩ := mem_map.mp hk
      obtain ⟨hin, hevictable⟩ := hev.evictable e he
      exact mem_map_of_mem (mem_filter.mpr ⟨hin, by simpa using hevictable⟩)
    · rw [length_map, hev.length, hnum]
    rw [hstores.policy, mem_keys_insertAll, hev.mem_keys]
    have hold : k ∈ evicted.map Prod.fst → k ∈ m.policy.keys := by
      intro hk
      obtain ⟨e, he, rfl⟩ := mem_map.mp hk
      exact mem_map_of_mem (hev.evictable e he).1
    have hstored : k ∈ ((m.keysToStore keys).zip blocks).map Prod.fst → k ∉ m.policy.keys := by
      intro hk
      obtain ⟨e, he, rfl⟩ := mem_map.mp hk
      have hnone := (mem_filter.mp (of_mem_zip he).1).2
      exact get_eq_none.mp (by simpa using hnone)
    tauto

omit [DecidableEq κ] in
theorem init_wellFormed (numBlocks : Nat) (name : CachePolicyName) (enableEvents : Bool) :
    (init numBlocks name enableEvents : CPUOffloadingManager κ).WellFormed := by
  refine ⟨?_, Nat.zero_le _⟩
  cases name <;> simp [init, newPolicy, keys, entries, ARCCachePolicy.entries]

theorem run_wellFormed [ToString κ] {fl : ℚ → ℚ} {m m' : CPUOffloadingManager κ}
    (hm : m.WellFormed) {ops : List (Op κ)} (h : Trace.run (step fl) m ops = .ok m') :
    m'.WellFormed :=
  Trace.run_induct (fun _ _ _ hs _ hstep => step_wellFormed fl hs hstep) hm
    (Trace.meets_of_forall (fun _ _ => trivial) m) h

/-- In every state that any calls reach, a store fails for lack of room only, exactly when the
policy is LRU or ARC's target leaves enough of `t1` open. -/
theorem prepareStore_failsForRoomOnly_iff [ToString κ] (fl : ℚ → ℚ) (numBlocks : Nat)
    (name : CachePolicyName) (enableEvents : Bool) (ops : List (Op κ))
    (m : CPUOffloadingManager κ)
    (hrun : Trace.run (step fl) (init numBlocks name enableEvents) ops = .ok m) (keys : List κ) :
    m.FailsForRoomOnly keys ↔ m.Reaches keys :=
  failsForRoomOnly_iff (run_wellFormed (init_wellFormed numBlocks name enableEvents) hrun) keys

/-- Two slots: key 3 has taken the slot of key 1, two touches of key 1 raise the target to 2, key
2 moves to `t2` and is being loaded. -/
def closedT1 : List (Op Nat) :=
  [.prepareStore [1, 2], .completeStore [1, 2] true, .prepareStore [3], .completeStore [3] true,
    .touch [1], .touch [1], .touch [2], .prepareLoad [2]]

/-- The block of key 3 could be evicted for key 4, but `t1` is below its target. -/
theorem prepareStore_fails_with_room : ¬ ∀ (fl : ℚ → ℚ) (numBlocks : Nat) (name : CachePolicyName)
    (enableEvents : Bool) (ops : List (Op Nat)) (m : CPUOffloadingManager Nat),
    Trace.run (step fl) (init numBlocks name enableEvents) ops = .ok m →
      ∀ keys : List Nat, keys.Nodup → m.FailsForRoomOnly keys := by
  intro hall
  have hcheck : (Trace.run (step id) (init 2 .arc false) closedT1).toOption.any (fun m =>
      decide ((m.prepareStore [4]).toOption = some (none, m) ∧
        ((m.keysToStore [4]).length : Int) ≤
          m.getNumFreeBlocks + (m.policy.evictable [4]).length)) = true := by
    decide +kernel
  obtain ⟨m, hrun, hcheck⟩ := ok_of_any hcheck
  obtain ⟨hnone, hroom⟩ := of_decide_eq_true hcheck
  obtain ⟨out, m', hout, hiff, -, -⟩ := hall id 2 .arc false closedT1 m hrun [4] (by simp)
  rw [hout] at hnone
  cases hnone
  exact absurd (hiff.mp rfl) (not_lt.mpr hroom)

/-- With the block of key 2 unused the same store succeeds. -/
theorem prepareStore_failsForRoomOnly_iff_unused :
    ∃ m : CPUOffloadingManager Nat,
      Trace.run (step id) (init 2 .arc false) (closedT1.dropLast) = .ok m ∧
        (m.FailsForRoomOnly [4] ↔ m.Reaches [4]) := by
  have hok : (Trace.run (step id) (init 2 .arc false) closedT1.dropLast).toOption.any
      (fun _ => true) = true := by
    decide +kernel
  obtain ⟨m, hrun, -⟩ := ok_of_any hok
  exact ⟨m, hrun, prepareStore_failsForRoomOnly_iff id 2 .arc false _ m hrun [4]⟩

theorem cInt32_of_small {n : Int} (h : -2 ^ 31 ≤ n) (h' : n < 2 ^ 31) : cInt32 n = n := by
  unfold cInt32
  rw [Int.bmod_def]
  split_ifs <;> omega

/-- The state of the manager while the stores of the keys `stores` are pending and `loads k` loads
of each key `k` are prepared and not completed. -/
structure Serving {capacity : Nat} (fl : Rounding capacity) (m : CPUOffloadingManager κ)
    (stores : List κ) (loads : κ → Nat) : Prop where
  numBlocks : m.numBlocks = capacity
  wellFormed : m.WellFormed
  bounded : m.policy.Bounded fl
  slots : (m.policy.entries.map (fun e => e.2.blockId) ++ (m.freeList ++ m.unallocated)).Perm
    (range capacity)
  counts : ∀ key block, m.policy.get key = some block →
    block.refCnt = if key ∈ stores then -1 else (loads key : Int)
  stored : ∀ key ∈ stores, key ∈ m.policy.keys
  loaded : ∀ key, 0 < loads key → key ∈ m.policy.keys ∧ key ∉ stores
  nodup : stores.Nodup

namespace Serving
variable {capacity : Nat} {fl : Rounding capacity} {m m' : CPUOffloadingManager κ}
  {stores : List κ} {loads : κ → Nat} {key : κ} {keys : List κ}

theorem filter_notMem_cons (stores keys : List κ) (key : κ) :
    (stores.filter (fun k => k ≠ key)).filter (fun k => k ∉ keys) =
      stores.filter (fun k => k ∉ key :: keys) := by
  rw [filter_filter]
  refine filter_congr fun k _ => ?_
  simp only [mem_cons, not_or, Bool.decide_and]
  exact Bool.and_comm _ _

theorem mem_filter_rest (hnodup : (key :: keys).Nodup) (hsub : ∀ k ∈ key :: keys, k ∈ stores) :
    ∀ k ∈ keys, k ∈ stores.filter (fun k => k ≠ key) := by
  intro k hk
  refine mem_filter.mpr ⟨hsub k (mem_cons_of_mem _ hk), ?_⟩
  simpa using ne_of_mem_of_not_mem hk (nodup_cons.mp hnodup).1

variable (h : Serving fl m stores loads) {block : BlockStatus}
include h

theorem setRefCnt
    (hget : m.policy.get key = some block) (c : Int) {stores' : List κ} {loads' : κ → Nat}
    (hc : cInt32 c = if key ∈ stores' then -1 else (loads' key : Int))
    (hsame : ∀ k, k ≠ key → (k ∈ stores' ↔ k ∈ stores) ∧ loads' k = loads k)
    (hkey : 0 < loads' key → key ∉ stores') (hnodup : stores'.Nodup) :
    Serving fl (m.setRefCnt key block c) stores' loads' := by
  have hslots := setRefCnt_sameSlots h.wellFormed.keys hget c
  have hmem := mem_keys_of_get hget
  refine ⟨h.numBlocks, h.wellFormed.of_sameSlots hslots,
    h.bounded.assign h.wellFormed.keys hmem _, ?_, ?_, ?_, ?_, hnodup⟩
  · exact (hslots.ids.append_right _).trans h.slots
  · intro k b hb
    rw [get_setRefCnt h.wellFormed.keys hget] at hb
    split_ifs at hb with heq
    · cases hb
      rw [heq]
      exact hc
    · rw [h.counts k b hb, (hsame k heq).2]
      exact if_congr (hsame k heq).1.symm rfl rfl
  · intro k hk
    rw [hslots.keys.mem_iff]
    by_cases heq : k = key
    · exact heq ▸ hmem
    · exact h.stored k ((hsame k heq).1.mp hk)
  · intro k hk
    rw [hslots.keys.mem_iff]
    by_cases heq : k = key
    · subst heq
      exact ⟨hmem, hkey hk⟩
    · rw [(hsame k heq).2] at hk
      rw [(hsame k heq).1]
      exact h.loaded k hk

theorem setReaders (hin : key ∈ m.policy.keys)
    (hnot : key ∉ stores) : ∃ block, m.policy.get key = some block ∧ block.refCnt = loads key ∧
      ∀ (c : Int) (n : Nat), c = n → n < 2 ^ 31 → Serving fl (m.setRefCnt key block c) stores
        (fun k => if k = key then n else loads k) := by
  obtain ⟨block, hget⟩ := get?_of_mem_keys hin
  rw [← get_eq] at hget
  have hcount := h.counts key block hget
  rw [if_neg hnot] at hcount
  refine ⟨block, hget, hcount, fun c n hc hn => ?_⟩
  refine h.setRefCnt hget _ ?_ (fun k hk => ⟨Iff.rfl, if_neg hk⟩) (fun _ => hnot) h.nodup
  rw [if_neg hnot, if_pos rfl, hc, cInt32_of_small (by omega) (by omega)]

theorem prepareLoad [ToString κ]
    (hready : ∀ k ∈ keys, k ∈ m.policy.keys ∧ k ∉ stores)
    (hsmall : ∀ k ∈ keys, keys.count k + loads k < 2 ^ 31) :
    ∃ ids m', m.prepareLoad keys = .ok (ids, m') ∧
      Serving fl m' stores (fun k => keys.count k + loads k) := by
  induction keys generalizing m loads with
  | nil => exact ⟨[], m, rfl, by simpa using h⟩
  | cons key keys ih =>
    obtain ⟨hin, hnot⟩ := hready key mem_cons_self
    obtain ⟨block, hget, hcount, hread⟩ := h.setReaders hin hnot
    have hbound := hsmall key mem_cons_self
    rw [count_cons_self] at hbound
    have hkeys := (setRefCnt_sameSlots h.wellFormed.keys hget (block.refCnt + 1)).keys
    have hcons (k : κ) : (key :: keys).count k + loads k =
        keys.count k + (if k = key then loads key + 1 else loads k) := by
      by_cases hk : k = key
      · subst hk
        simp only [count_cons_self, if_true]
        omega
      · simp [hk, count_cons_of_ne (Ne.symm hk)]
    obtain ⟨ids, m', hload, hserving⟩ := ih
      (hread (block.refCnt + 1) (loads key + 1) (by omega) (by omega))
      (fun k hk => by
        rw [hkeys.mem_iff]
        exact hready k (mem_cons_of_mem _ hk))
      (fun k hk => by
        rw [← hcons]
        exact hsmall k (mem_cons_of_mem _ hk))
    refine ⟨block.blockId :: ids, m', ?_, ?_⟩
    · simp only [prepareLoad, hget, seq_ok_iff, pyAssert_eq_ok]
      exact ⟨(), by omega, (ids, m'), hload, rfl⟩
    · simpa only [hcons] using hserving

theorem completeLoad [ToString κ]
    (hprepared : ∀ k, keys.count k ≤ loads k) (hsmall : ∀ k, loads k < 2 ^ 31) :
    ∃ m', m.completeLoad keys = .ok m' ∧
      Serving fl m' stores (fun k => loads k - keys.count k) := by
  induction keys generalizing m loads with
  | nil => exact ⟨m, rfl, h⟩
  | cons key keys ih =>
    have hle := hprepared key
    have hlt := hsmall key
    rw [count_cons_self] at hle
    obtain ⟨hin, hnot⟩ := h.loaded key (by omega)
    obtain ⟨block, hget, hcount, hread⟩ := h.setReaders hin hnot
    have hcons (k : κ) : loads k - (key :: keys).count k =
        (if k = key then loads key - 1 else loads k) - keys.count k := by
      by_cases hk : k = key
      · subst hk
        simp only [count_cons_self, if_true]
        omega
      · simp [hk, count_cons_of_ne (Ne.symm hk)]
    obtain ⟨m', hload, hserving⟩ := ih
      (hread (block.refCnt - 1) (loads key - 1) (by omega) (by omega))
      (fun k => by
        by_cases hk : k = key
        · subst hk
          rw [if_pos rfl]
          omega
        · rw [if_neg hk, ← count_cons_of_ne (Ne.symm hk)]
          exact hprepared k)
      (fun k => by
        have := hsmall k
        split_ifs <;> omega)
    refine ⟨m', ?_, by simpa only [hcons] using hserving⟩
    simp only [completeLoad, hget, seq_ok_iff, pyAssert_eq_ok]
    exact ⟨(), by omega, hload⟩

theorem get_pending (hkey : key ∈ stores) :
    ∃ block, m.policy.get key = some block ∧ block.refCnt = -1 ∧ loads key = 0 := by
  obtain ⟨block, hget⟩ := get?_of_mem_keys (h.stored key hkey)
  rw [← get_eq] at hget
  refine ⟨block, hget, ?_, ?_⟩
  · rw [h.counts key block hget, if_pos hkey]
  · by_contra hne
    exact (h.loaded key (Nat.pos_of_ne_zero hne)).2 hkey

theorem finishStores (hnodup : keys.Nodup)
    (hsub : ∀ k ∈ keys, k ∈ stores) :
    Serving fl (m.finishStores keys).2 (stores.filter (fun k => k ∉ keys)) loads := by
  induction keys generalizing m stores with
  | nil => simpa [finishStores] using h
  | cons key keys ih =>
    obtain ⟨block, hget, hcount, hzero⟩ := h.get_pending (hsub key mem_cons_self)
    have hstep : Serving fl (m.setRefCnt key block 0) (stores.filter (fun k => k ≠ key)) loads := by
      refine h.setRefCnt hget _ ?_ (fun k hk => ⟨?_, rfl⟩) (fun hpos => by omega) (h.nodup.filter _)
      · simp [hzero, cInt32]
      · simp [hk]
    have hrest := ih hstep (nodup_cons.mp hnodup).2 (mem_filter_rest hnodup hsub)
    rw [filter_notMem_cons] at hrest
    have hready : ¬ block.IsReady := by omega
    simpa only [finishStores, hget, if_neg hready] using hrest

theorem drop
    (hget : m.policy.get key = some block) (hkey : key ∈ stores) (hzero : loads key = 0) :
    ∃ policy, m.policy.remove key = .ok policy ∧
      Serving fl (freeBlock { m with policy := policy } block)
        (stores.filter (fun k => k ≠ key)) loads := by
  have hk := h.wellFormed.keys
  have hmem := mem_keys_of_get hget
  obtain ⟨policy, hpolicy, hentries⟩ := remove_ok hk hmem
  have hkeys : policy.keys = m.policy.keys.filter (fun k => k ≠ key) := by
    unfold keys
    rw [hentries, keys_erase]
  have hperm : m.policy.entries.Perm ((key, block) :: policy.entries) := by
    rw [hentries]
    exact perm_cons_erase hk (by rwa [← get_eq])
  refine ⟨policy, hpolicy, h.numBlocks, ⟨?_, h.wellFormed.le⟩,
    h.bounded.remove hk hmem hpolicy, ?_, ?_, ?_, ?_, h.nodup.filter _⟩
  · change policy.keys.Nodup
    rw [hkeys]
    exact hk.filter _
  · refine List.Perm.trans ?_ h.slots
    refine List.Perm.trans ?_ ((hperm.map (fun e => e.2.blockId)).append_right _).symm
    simp only [freeBlock, append_assoc]
    have hfree : (m.freeList ++ block.blockId :: m.unallocated).Perm
        (block.blockId :: (m.freeList ++ m.unallocated)) := perm_middle
    exact (hfree.append_left _).trans perm_middle
  · intro k b hb
    have hne : k ≠ key := by
      rintro rfl
      have hin : k ∈ policy.keys := mem_keys_of_get hb
      rw [hkeys] at hin
      simp at hin
    have hold : m.policy.get k = some b := by
      have hb' : get? policy.entries k = some b := by
        rw [← get_eq]
        exact hb
      rw [hentries, get?_erase_of_ne _ hne] at hb'
      rw [get_eq]
      exact hb'
    rw [h.counts k b hold]
    exact if_congr (by simp [hne]) rfl rfl
  · intro k hk'
    obtain ⟨hin, hne⟩ := mem_filter.mp hk'
    change k ∈ policy.keys
    rw [hkeys]
    exact mem_filter.mpr ⟨h.stored k hin, hne⟩
  · intro k hpos
    obtain ⟨hin, hnot⟩ := h.loaded k hpos
    have hne : k ≠ key := by
      rintro rfl
      omega
    refine ⟨?_, fun hin' => hnot (mem_filter.mp hin').1⟩
    change k ∈ policy.keys
    rw [hkeys]
    exact mem_filter.mpr ⟨hin, by simpa using hne⟩

theorem dropStores (hnodup : keys.Nodup)
    (hsub : ∀ k ∈ keys, k ∈ stores) :
    ∃ m', m.dropStores keys = .ok m' ∧ Serving fl m' (stores.filter (fun k => k ∉ keys)) loads := by
  induction keys generalizing m stores with
  | nil => exact ⟨m, rfl, by simpa using h⟩
  | cons key keys ih =>
    have hkey := hsub key mem_cons_self
    obtain ⟨block, hget, hcount, hzero⟩ := h.get_pending hkey
    obtain ⟨policy, hpolicy, hstep⟩ := h.drop hget hkey hzero
    obtain ⟨m', hdrop, hserving⟩ := ih hstep (nodup_cons.mp hnodup).2
      (mem_filter_rest hnodup hsub)
    rw [filter_notMem_cons] at hserving
    have hready : ¬ block.IsReady := by omega
    refine ⟨m', ?_, hserving⟩
    simp only [dropStores, hget, if_neg hready, seq_ok_iff]
    exact ⟨policy, hpolicy, hdrop⟩

abbrev slotIds (entries : List (κ × BlockStatus)) := entries.map fun e => e.2.blockId

theorem of_stores (hkeys : keys.Nodup)
    {evicted : List (κ × BlockStatus)} {policy : CachePolicy κ} {blocks : List BlockStatus}
    (hs : m.Stores m' keys evicted policy blocks) :
    Serving fl m' (m.keysToStore keys ++ stores) loads := by
  have hk := h.wellFormed.keys
  have hev := evict_some hk hs.evict
  have hnew : (m.keysToStore keys).Nodup := hkeys.filter _
  have habsent : ∀ k ∈ m.keysToStore keys, k ∉ m.policy.keys := fun k hk' =>
    get_eq_none.mp (by simpa using (mem_filter.mp hk').2)
  have hzip : ((m.keysToStore keys).zip blocks).map Prod.fst = m.keysToStore keys :=
    map_fst_zip (by rw [hs.length])
  have hzip' : ((m.keysToStore keys).zip blocks).map Prod.snd = blocks :=
    map_snd_zip (by rw [hs.length])
  have hperm : m'.policy.entries.Perm ((m.keysToStore keys).zip blocks ++ policy.entries) := by
    rw [hs.policy]
    refine entries_insertAll (by rwa [hzip]) fun e he hin => ?_
    exact habsent e.1 (of_mem_zip he).1 ((hev.mem_keys e.1).mp hin).1
  have hwf := hs.wellFormed h.wellFormed
  -- A key with a reader or a writer is not evicted.
  have hkept : ∀ k ∈ m.policy.keys, (k ∈ stores ∨ 0 < loads k) → k ∈ policy.keys := by
    intro k hin huse
    refine (hev.mem_keys k).mpr ⟨hin, fun hout => ?_⟩
    obtain ⟨e, he, rfl⟩ := mem_map.mp hout
    obtain ⟨hmem, hzero, -⟩ := hev.evictable e he
    have hcount := h.counts e.1 e.2 ((mem_entries_iff hk).mp hmem)
    rw [hzero] at hcount
    split_ifs at hcount with hst
    rcases huse with hst' | hpos
    · exact hst hst'
    · omega
  have hsub : ∀ k ∈ policy.keys, k ∈ m'.policy.keys := by
    intro k hin
    rw [hs.policy, mem_keys_insertAll]
    exact .inr hin
  refine ⟨hs.numBlocks.trans h.numBlocks, hwf, ?_, ?_, ?_, ?_, ?_, ?_⟩
  · rw [hs.policy]
    exact (h.bounded.evict hk hs.evict).insertAll _
  · have hblocks : slotIds ((m.keysToStore keys).zip blocks) = blocks.map BlockStatus.blockId :=
      map_map.symm.trans (congrArg (map BlockStatus.blockId) hzip')
    have hids : slotIds m'.policy.entries ~
        blocks.map BlockStatus.blockId ++ slotIds policy.entries := by
      rw [← hblocks, ← map_append]
      exact hperm.map _
    have hold : slotIds evicted ++ slotIds policy.entries ~ slotIds m.policy.entries := by
      rw [← map_append]
      exact ((hev.perm hk).map _).symm
    calc slotIds m'.policy.entries ++ (m'.freeList ++ m'.unallocated)
      _ ~ blocks.map BlockStatus.blockId ++ slotIds policy.entries ++
            (m'.freeList ++ m'.unallocated) := hids.append_right _
      _ ~ slotIds policy.entries ++ (blocks.map BlockStatus.blockId ++
            (m'.freeList ++ m'.unallocated)) := by
          rw [append_assoc]
          exact perm_append_comm_assoc _ _ _
      _ ~ slotIds policy.entries ++ (slotIds evicted ++ (m.freeList ++ m.unallocated)) :=
          hs.slots.append_left _
      _ ~ slotIds evicted ++ slotIds policy.entries ++ (m.freeList ++ m.unallocated) := by
          rw [append_assoc]
          exact perm_append_comm_assoc _ _ _
      _ ~ slotIds m.policy.entries ++ (m.freeList ++ m.unallocated) := hold.append_right _
      _ ~ range capacity := h.slots
  · intro k b hb
    have hmem := hperm.mem_iff.mp ((mem_entries_iff hwf.keys).mpr hb)
    rcases mem_append.mp hmem with hzipmem | hold
    · obtain ⟨hk1, hb1⟩ := of_mem_zip hzipmem
      rw [if_pos (mem_append_left _ hk1)]
      exact hs.fresh b hb1
    have hmemOld : (k, b) ∈ m.policy.entries := by
      rw [hev.entries] at hold
      exact (mem_filter.mp hold).1
    have hin : k ∉ m.keysToStore keys := fun hin =>
      habsent k hin (mem_map_of_mem hmemOld)
    rw [h.counts k b ((mem_entries_iff hk).mp hmemOld)]
    exact if_congr (by simp [hin]) rfl rfl
  · intro k hk'
    rcases mem_append.mp hk' with hin | hin
    · rw [hs.policy, mem_keys_insertAll, hzip]
      exact .inl hin
    · exact hsub k (hkept k (h.stored k hin) (.inl hin))
  · intro k hpos
    obtain ⟨hin, hnot⟩ := h.loaded k hpos
    refine ⟨hsub k (hkept k hin (.inr hpos)), fun hk' => ?_⟩
    rcases mem_append.mp hk' with hnew' | hold
    · exact habsent k hnew' hin
    · exact hnot hold
  · exact nodup_append.mpr ⟨hnew, h.nodup, fun a ha b hb hab =>
      habsent a ha (hab ▸ h.stored b hb)⟩

theorem prepareStore (hkeys : keys.Nodup) :
    ∃ out m', m.prepareStore keys = .ok (out, m') ∧
      Serving fl m' (out.elim [] (fun o => o.keysToStore) ++ stores) loads := by
  rcases prepareStore_cases h.wellFormed.keys h.wellFormed.le keys with
    ⟨-, hp⟩ | ⟨-, hp⟩ | ⟨-, -, evicted, policy, blocks, m', hs, hp⟩
  · exact ⟨_, _, hp, h⟩
  · exact ⟨_, _, hp, h⟩
  · exact ⟨_, _, hp, h.of_stores hkeys hs⟩

theorem touch (keys : List κ) : Serving fl (m.touch fl.round keys) stores loads := by
  have hk := h.wellFormed.keys
  have hslots := touch_sameSlots fl.round hk keys
  have hwf := h.wellFormed.of_sameSlots hslots
  refine ⟨h.numBlocks, hwf, h.bounded.touch hk keys, ?_, ?_, ?_, ?_, h.nodup⟩
  · exact (hslots.ids.append_right _).trans h.slots
  · intro k b hb
    have hmem := (mem_entries_iff hwf.keys).mpr hb
    have hold := (entries_touch fl.round hk keys).mem_iff.mp hmem
    exact h.counts k b ((mem_entries_iff hk).mp hold)
  · exact fun k hk' => hslots.keys.mem_iff.mpr (h.stored k hk')
  · exact fun k hpos => ⟨hslots.keys.mem_iff.mpr (h.loaded k hpos).1, (h.loaded k hpos).2⟩

theorem setEvents
    (events : Option (List (OffloadingEvent κ))) :
    Serving fl { m with events := events } stores loads :=
  ⟨h.numBlocks, ⟨h.wellFormed.keys, h.wellFormed.le⟩, h.bounded, h.slots, h.counts, h.stored,
    h.loaded, h.nodup⟩

end Serving

structure Tracked (κ : Type) where
  manager : CPUOffloadingManager κ
  stores : List κ
  loads : List κ
  deriving DecidableEq

namespace Tracked

def init (numBlocks : Nat) (name : CachePolicyName) (enableEvents : Bool) : Tracked κ :=
  ⟨.init numBlocks name enableEvents, [], []⟩

def step [ToString κ] (fl : ℚ → ℚ) (s : Tracked κ) : Op κ → Except PyError (Tracked κ)
  | .prepareLoad keys => do
    let (_, m) ← s.manager.prepareLoad keys
    return { s with manager := m, loads := keys ++ s.loads }
  | .completeLoad keys => do
    let m ← s.manager.completeLoad keys
    return { s with manager := m, loads := s.loads.diff keys }
  | .prepareStore keys => do
    let (out, m) ← s.manager.prepareStore keys
    return { s with manager := m, stores := out.elim [] (fun o => o.keysToStore) ++ s.stores }
  | .completeStore keys success => do
    let m ← s.manager.completeStore keys success
    return { s with manager := m, stores := s.stores.filter (fun k => k ∉ keys) }
  | op => do
    let m ← s.manager.step fl op
    return { s with manager := m }

variable (s : Tracked κ)

/-- The calls callers make: a store names each key once, a store is completed once, loads are
prepared for keys whose lookup answers `True`, and only prepared loads are completed. -/
def Permitted : Op κ → Prop
  | .prepareStore keys => keys.Nodup
  | .completeStore keys _ => keys.Nodup ∧ ∀ k ∈ keys, k ∈ s.stores
  | .prepareLoad keys => ∀ k ∈ keys, s.manager.lookup k = some true
  | .completeLoad keys => ∀ k, keys.count k ≤ s.loads.count k
  | _ => True

/-- No key has 2 ^ 31 loads under way after the call. -/
def FewLoads : Op κ → Prop
  | .prepareLoad keys => ∀ k, (keys ++ s.loads).count k < 2 ^ 31
  | _ => True

instance (op : Op κ) : Decidable (s.Permitted op) :=
  match op with
  | .prepareStore keys => inferInstanceAs (Decidable keys.Nodup)
  | .completeStore keys _ => inferInstanceAs (Decidable (keys.Nodup ∧ ∀ k ∈ keys, k ∈ s.stores))
  | .prepareLoad keys => inferInstanceAs (Decidable (∀ k ∈ keys, s.manager.lookup k = some true))
  | .completeLoad keys =>
    decidable_of_iff (∀ k ∈ keys, keys.count k ≤ s.loads.count k) ⟨fun h k => by
      by_cases hk : k ∈ keys
      · exact h k hk
      · rw [count_eq_zero_of_not_mem hk]
        exact Nat.zero_le _, fun h k _ => h k⟩
  | .lookup _ | .touch _ | .takeEvents => inferInstanceAs (Decidable True)

instance (op : Op κ) : Decidable (s.FewLoads op) :=
  match op with
  | .prepareLoad keys =>
    decidable_of_iff (∀ k ∈ keys ++ s.loads, (keys ++ s.loads).count k < 2 ^ 31) ⟨fun h k => by
      by_cases hk : k ∈ keys ++ s.loads
      · exact h k hk
      · rw [count_eq_zero_of_not_mem hk]
        exact Nat.two_pow_pos 31, fun h k _ => h k⟩
  | .lookup _ | .touch _ | .takeEvents | .completeLoad _ | .prepareStore _ | .completeStore _ _ =>
    inferInstanceAs (Decidable True)

/-- Slots are neither lost nor shared, keys are unique, ARC's lists and target are within their
bounds, and reference counts say what is under way. -/
structure Sound (numBlocks : Nat) (s : Tracked κ) : Prop where
  slots : (s.manager.policy.entries.map (fun e => e.2.blockId) ++
    (s.manager.freeList ++ s.manager.unallocated)).Perm (range numBlocks)
  keys : s.manager.policy.keys.Nodup
  ghosts : ∀ p, s.manager.policy = .arc p → (∀ k ∈ p.entries.map Prod.fst, k ∉ p.b1 ∧ k ∉ p.b2) ∧
    p.b1.length ≤ numBlocks ∧ p.b2.length ≤ numBlocks ∧
    0 ≤ p.targetT1Size ∧ p.targetT1Size ≤ numBlocks
  pending : ∀ k b, s.manager.policy.get k = some b → (b.refCnt = -1 ↔ k ∈ s.stores)
  counts : ∀ k b, s.manager.policy.get k = some b → b.refCnt ≠ -1 →
    b.refCnt = s.loads.count k

structure Inv {capacity : Nat} (fl : Rounding capacity) (s : Tracked κ) : Prop where
  serving : Serving fl s.manager s.stores (fun k => s.loads.count k)
  few : ∀ k, s.loads.count k < 2 ^ 31

variable {capacity : Nat}

theorem Inv.sound {fl : Rounding capacity} {s : Tracked κ} (h : Inv fl s) : Sound capacity s := by
  have hcounts := h.serving.counts
  refine ⟨h.serving.slots, h.serving.wellFormed.keys, ?_, ?_, ?_⟩
  · intro p hp
    have hb := h.serving.bounded
    rw [hp] at hb
    exact ⟨hb.ghosts, hb.b1, hb.b2, hb.nonneg, hb.le⟩
  · intro k b hget
    have hcount := hcounts k b hget
    split_ifs at hcount with hk
    · exact ⟨fun _ => hk, fun _ => hcount⟩
    · exact ⟨fun hneg => by omega, fun hin => absurd hin hk⟩
  · intro k b hget hne
    have hcount := hcounts k b hget
    split_ifs at hcount with hk
    · exact absurd hcount hne
    · exact hcount

theorem init_inv (fl : Rounding capacity) (name : CachePolicyName) (enableEvents : Bool) :
    Inv fl (init capacity name enableEvents : Tracked κ) := by
  have hzero : fl.round 0 = 0 := by simpa using fl.natCast 0 (Nat.zero_le _)
  have hbounded : (newPolicy capacity name : CachePolicy κ).Bounded fl := by
    cases name with
    | lru => trivial
    | arc =>
      refine ⟨rfl, ?_, Nat.zero_le _, Nat.zero_le _, le_refl _, Nat.cast_nonneg _, hzero⟩
      simp [ARCCachePolicy.entries]
  have hentries : (newPolicy capacity name : CachePolicy κ).entries = [] := by
    cases name <;> rfl
  have hget : ∀ k : κ, (newPolicy capacity name : CachePolicy κ).get k = none := by
    intro k
    rw [get_eq, hentries]
    rfl
  refine ⟨⟨rfl, init_wellFormed capacity name enableEvents, hbounded, ?_, ?_, by simp [init],
    by simp [init], by simp [init]⟩, by simp [init]⟩
  · simp only [init, CPUOffloadingManager.init, hentries, range_eq_range']
    exact List.Perm.refl _
  intro k b hb
  have hnone := hget k
  simp only [init, CPUOffloadingManager.init] at hb
  rw [hnone] at hb
  exact absurd hb (by simp)

theorem lookup_eq_true {m : CPUOffloadingManager κ} {k : κ} (h : m.lookup k = some true) :
    ∃ block, m.policy.get k = some block ∧ 0 ≤ block.refCnt := by
  unfold lookup at h
  cases hget : m.policy.get k with
  | none => simp [hget] at h
  | some block =>
    simp only [hget] at h
    split_ifs at h with hready
    exact ⟨block, rfl, hready⟩

theorem step_inv [ToString κ] (fl : Rounding capacity) {s : Tracked κ} (h : Inv fl s) {op : Op κ}
    (hperm : s.Permitted op) (hfew : s.FewLoads op) :
    ∃ s', s.step fl.round op = .ok s' ∧ Inv fl s' := by
  obtain ⟨hs, hsmall⟩ := h
  cases op with
  | lookup key => exact ⟨s, rfl, hs, hsmall⟩
  | touch keys => exact ⟨_, rfl, hs.touch keys, hsmall⟩
  | takeEvents => exact ⟨_, rfl, hs.setEvents _, hsmall⟩
  | prepareLoad keys =>
    have hcount : ∀ k, (keys ++ s.loads).count k = keys.count k + s.loads.count k :=
      fun k => count_append
    have hready : ∀ k ∈ keys, k ∈ s.manager.policy.keys ∧ k ∉ s.stores := by
      intro k hk
      obtain ⟨block, hget, hnonneg⟩ := lookup_eq_true (hperm k hk)
      refine ⟨mem_keys_of_get hget, fun hin => ?_⟩
      have hneg := hs.counts k block hget
      rw [if_pos hin] at hneg
      omega
    obtain ⟨ids, m, hload, hserving⟩ := hs.prepareLoad hready (fun k _ => by
      rw [← hcount]
      exact hfew k)
    refine ⟨{ s with manager := m, loads := keys ++ s.loads }, ?_, ?_, hfew⟩
    · rw [step, hload]
      rfl
    · simpa only [hcount] using hserving
  | completeLoad keys =>
    have hcount : ∀ k, (s.loads.diff keys).count k = s.loads.count k - keys.count k :=
      fun k => count_diff k s.loads keys
    obtain ⟨m, hload, hserving⟩ := hs.completeLoad hperm hsmall
    refine ⟨{ s with manager := m, loads := s.loads.diff keys }, ?_, ?_, fun k => ?_⟩
    · rw [step, hload]
      rfl
    · simpa only [hcount] using hserving
    · have := hsmall k
      have := hcount k
      change (s.loads.diff keys).count k < _
      omega
  | prepareStore keys =>
    obtain ⟨out, m, hstore, hserving⟩ := hs.prepareStore hperm
    refine ⟨⟨m, out.elim [] (fun o => o.keysToStore) ++ s.stores, s.loads⟩, ?_, hserving, hsmall⟩
    rw [step, hstore]
    rfl
  | completeStore keys success =>
    cases success with
    | true =>
      obtain ⟨events, hevents⟩ :=
        (s.manager.finishStores keys).2.appendEvent_eq (s.manager.finishStores keys).1 false
      have hserving := (hs.finishStores hperm.1 hperm.2).setEvents events
      rw [← hevents] at hserving
      exact ⟨_, rfl, hserving, hsmall⟩
    | false =>
      obtain ⟨m, hdrop, hserving⟩ := hs.dropStores hperm.1 hperm.2
      refine ⟨{ s with manager := m, stores := s.stores.filter (fun k => k ∉ keys) }, ?_,
        hserving, hsmall⟩
      have hcomplete : s.manager.completeStore keys false = .ok m := hdrop
      rw [step, hcomplete]
      rfl

/-- No call of a permitted run raises, and every state it reaches is sound, as long as no key has
2 ^ 31 loads under way. -/
theorem run_sound [ToString κ] {numBlocks : Nat} (fl : Rounding numBlocks) (name : CachePolicyName)
    (enableEvents : Bool) (ops : List (Op κ))
    (hops : Trace.Meets (step fl.round) (fun s op => s.Permitted op ∧ s.FewLoads op)
      (init numBlocks name enableEvents) ops) :
    ∃ s, Trace.run (step fl.round) (init numBlocks name enableEvents) ops = .ok s ∧
      s.Sound numBlocks := by
  obtain ⟨s, hrun, hinv⟩ := Trace.run_ok
    (fun s op hs (hop : s.Permitted op ∧ s.FewLoads op) => step_inv fl hs hop.1 hop.2)
    (init_inv fl name enableEvents) hops
  exact ⟨s, hrun, hinv.sound⟩

/-- Two slots: a store that succeeds, one that fails, a load and a touch while it is under way. -/
theorem run_sound_mixed : ∃ s, Trace.run (step id) (init 2 .arc true)
    [.prepareStore [1, 2], .completeStore [1] true, .completeStore [2] false, .prepareLoad [1],
      .touch [1], .prepareStore [3], .completeLoad [1]] = .ok s ∧ s.Sound 2 :=
  run_sound (Rounding.exact 2) .arc true _
    (Trace.meets_of_passes (fun _ _ h => of_decide_eq_true h) (by decide +kernel))

/-- A key that one call names twice takes two slots, and the first of them is lost. -/
theorem repeated_key_loses_slot : ∃ s, Trace.run (step id) (init 2 .lru false)
    [.prepareStore [1, 1]] = .ok s ∧ 0 ∉ s.manager.policy.entries.map (fun e => e.2.blockId) ∧
      0 ∉ s.manager.freeList ∧ 0 ∉ s.manager.unallocated ∧ ¬ s.Sound 2 := by
  have hrun : Trace.run (step id) (init 2 .lru false) [.prepareStore [1, 1]] =
      .ok ⟨⟨2, 2, [], none, .lru ⟨[(1, ⟨-1, 1⟩)]⟩⟩, [1, 1], []⟩ := by decide +kernel
  exact ⟨_, hrun, by decide, by decide, by decide, fun hs => absurd hs.slots.length_eq (by decide)⟩

def overloaded (r : Int) (n : Nat) : Tracked Nat :=
  ⟨⟨1, 1, [], none, .lru ⟨[(0, ⟨r, 0⟩)]⟩⟩, [], replicate n 0⟩

/-- The load number 2 ^ 31 of one key turns its reference count negative. -/
theorem prepareLoad_wraps (fl : ℚ → ℚ) {n : Nat} (hn : n + 1 = 2 ^ 31) :
    (overloaded n n).Permitted (.prepareLoad [0]) ∧
      (overloaded n n).step fl (.prepareLoad [0]) = .ok (overloaded (-2 ^ 31) (n + 1)) ∧
      ¬ (overloaded (-2 ^ 31) (n + 1)).Sound 1 := by
  have hr : 0 ≤ (n : Int) := Int.natCast_nonneg n
  have hget : (overloaded n n).manager.policy.get 0 = some ⟨n, 0⟩ := rfl
  refine ⟨fun k hk => ?_, ?_, fun hs => ?_⟩
  · obtain rfl : k = 0 := by simpa using hk
    rw [lookup, hget]
    exact if_pos hr
  · have hwrap : cInt32 ((n : Int) + 1) = -2 ^ 31 := by
      rw [show (n : Int) + 1 = 2 ^ 31 by omega]
      decide
    have hload : (overloaded n n).manager.prepareLoad [0] =
        .ok ([0], (overloaded (-2 ^ 31) (n + 1)).manager) := by
      rw [prepareLoad, hget, ← hwrap]
      simp only [seq_ok_iff, pyAssert_eq_ok]
      exact ⟨(), hr, _, rfl, rfl⟩
    rw [step, hload]
    rfl
  · have hcount := hs.counts 0 ⟨-2 ^ 31, 0⟩ rfl (by decide)
    exact absurd (hcount.ge.trans_lt (by decide)) (Int.natCast_nonneg _).not_gt

end Tracked

end TailBlend.CPUOffloadingManager
