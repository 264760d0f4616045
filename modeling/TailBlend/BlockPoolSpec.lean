import TailBlend.BlockPool

/-! What each operation of the block pool does to the counts, the free queue and
the hash map of a consistent pool. -/
namespace TailBlend.BlockPool
open Function List

/-- The free queue holds exactly the unreferenced blocks, once each. -/
structure PoolOK (p : BlockPool) : Prop where
  nodup : p.freeBlockQueue.Nodup
  mem_iff : ∀ b, b ∈ p.freeBlockQueue ↔ 0 < b ∧ b < p.numGpuBlocks ∧ p.refCnt b = 0
  count : p.numFreeBlocks = p.freeBlockQueue.length
  nonneg : ∀ b, b ≠ 0 → 0 ≤ p.refCnt b

/-- The map and the hashes of the blocks describe each other. -/
structure HashAgree (p : BlockPool) : Prop where
  cached_iff : ∀ b key, b ∈ p.cachedBlockHashToBlock key ↔ p.blockHash b = some key
  cached_nodup : ∀ key, (p.cachedBlockHashToBlock key).Nodup
  off : p.enableCaching = false → ∀ b, p.blockHash b = none

/-- The map and the hashes of the blocks agree, and only real blocks are cached. -/
structure HashOK (p : BlockPool) : Prop where
  cached_iff : ∀ b key, b ∈ p.cachedBlockHashToBlock key ↔ p.blockHash b = some key
  cached_nodup : ∀ key, (p.cachedBlockHashToBlock key).Nodup
  cached_lt : ∀ b key, p.blockHash b = some key → 0 < b ∧ b < p.numGpuBlocks
  off : p.enableCaching = false → ∀ b, p.blockHash b = none

variable {p q p' : BlockPool} {b groupId numCached numFull blockSize : Nat} {blocks : List Nat}
  {hashes : List (List BlockHash)} {blockHashes : List BlockHash} {tokens : List Int}

theorem HashOK.agree (h : HashOK p) : HashAgree p := ⟨h.cached_iff, h.cached_nodup, h.off⟩

theorem HashAgree.hashOK (h : HashAgree p)
    (hlt : ∀ b key, p.blockHash b = some key → 0 < b ∧ b < p.numGpuBlocks) : HashOK p :=
  ⟨h.cached_iff, h.cached_nodup, hlt, h.off⟩

structure SameConfig (p p' : BlockPool) : Prop where
  num : p'.numGpuBlocks = p.numGpuBlocks
  caching : p'.enableCaching = p.enableCaching
  hashSize : p'.hashBlockSize = p.hashBlockSize

theorem SameConfig.refl (p : BlockPool) : SameConfig p p := ⟨rfl, rfl, rfl⟩

theorem SameConfig.trans {r : BlockPool} (h : SameConfig p q) (h' : SameConfig q r) :
    SameConfig p r :=
  ⟨h'.num.trans h.num, h'.caching.trans h.caching, h'.hashSize.trans h.hashSize⟩

theorem poolOK_init (n : Nat) (caching : Bool) (size : Nat) (events : Bool) (hn : 0 < n) :
    PoolOK (init n caching size events) := by
  refine ⟨?_, ?_, ?_, ?_⟩
  · exact Nodup.sublist (drop_sublist _ _) nodup_range
  · intro b
    obtain ⟨m, rfl⟩ : ∃ m, n = m + 1 := ⟨n - 1, by omega⟩
    simp only [init, range_succ_eq_map, drop_succ_cons, drop_zero, mem_map, mem_range, and_true]
    constructor
    · omega
    · intro h
      exact ⟨b - 1, by omega, by omega⟩
  · simp [init]
    omega
  · simp [init]

theorem hashOK_init (n : Nat) (caching : Bool) (size : Nat) (events : Bool) :
    HashOK (init n caching size events) := by
  constructor <;> simp [init]

section evict
variable (p : BlockPool) (b : Nat)

@[simp] theorem maybeEvict_refCnt : (p.maybeEvictCachedBlock b).refCnt = p.refCnt := by
  unfold maybeEvictCachedBlock
  split <;> [rfl; (split <;> rfl)]

@[simp] theorem maybeEvict_free :
    (p.maybeEvictCachedBlock b).freeBlockQueue = p.freeBlockQueue := by
  unfold maybeEvictCachedBlock
  split <;> [rfl; (split <;> rfl)]

@[simp] theorem maybeEvict_numFree :
    (p.maybeEvictCachedBlock b).numFreeBlocks = p.numFreeBlocks := by
  unfold maybeEvictCachedBlock
  split <;> [rfl; (split <;> rfl)]

@[simp] theorem maybeEvict_written : (p.maybeEvictCachedBlock b).written = p.written := by
  unfold maybeEvictCachedBlock
  split <;> [rfl; (split <;> rfl)]

theorem maybeEvict_sameConfig : SameConfig p (p.maybeEvictCachedBlock b) := by
  unfold maybeEvictCachedBlock
  split <;> [exact ⟨rfl, rfl, rfl⟩; (split <;> exact ⟨rfl, rfl, rfl⟩)]

variable {p b}

theorem HashAgree.maybeEvict_blockHash (h : HashAgree p) (b : Nat) :
    (p.maybeEvictCachedBlock b).blockHash = update p.blockHash b none := by
  unfold maybeEvictCachedBlock
  cases hb : p.blockHash b with
  | none => simp [← hb]
  | some key => simp [(h.cached_iff b key).mpr hb]

theorem HashAgree.maybeEvict (h : HashAgree p) (b : Nat) :
    HashAgree (p.maybeEvictCachedBlock b) := by
  have hc := maybeEvict_sameConfig p b
  refine ⟨?_, ?_, ?_⟩
  · intro c key
    rw [h.maybeEvict_blockHash]
    unfold maybeEvictCachedBlock
    cases hb : p.blockHash b with
    | none =>
      rw [h.cached_iff]
      by_cases hcb : c = b
      · simp [hcb, hb]
      · simp [hcb]
    | some k =>
      simp only [(h.cached_iff b k).mpr hb, if_true]
      by_cases hk : key = k
      · subst hk
        rw [update_self, (h.cached_nodup key).mem_erase_iff, h.cached_iff]
        by_cases hcb : c = b <;> simp [hcb]
      rw [update_of_ne hk, h.cached_iff]
      by_cases hcb : c = b
      · subst hcb
        simp [hb]
        exact fun he => hk he.symm
      · simp [hcb]
  · intro key
    unfold maybeEvictCachedBlock
    cases hb : p.blockHash b with
    | none => exact h.cached_nodup key
    | some k =>
      simp only [(h.cached_iff b k).mpr hb, if_true]
      by_cases hk : key = k
      · subst hk
        rw [update_self]
        exact (h.cached_nodup key).erase b
      · rw [update_of_ne hk]
        exact h.cached_nodup key
  · intro hoff c
    rw [hc.caching] at hoff
    rw [h.maybeEvict_blockHash]
    by_cases hcb : c = b
    · simp [hcb]
    · simpa [hcb] using h.off hoff c

theorem HashOK.maybeEvict_blockHash (h : HashOK p) (b : Nat) :
    (p.maybeEvictCachedBlock b).blockHash = update p.blockHash b none :=
  h.agree.maybeEvict_blockHash b

theorem HashOK.maybeEvict (h : HashOK p) (b : Nat) : HashOK (p.maybeEvictCachedBlock b) := by
  refine (h.agree.maybeEvict b).hashOK (fun c key => ?_)
  rw [h.maybeEvict_blockHash, (maybeEvict_sameConfig p b).num]
  by_cases hcb : c = b
  · simp [hcb]
  · simpa [hcb] using h.cached_lt c key

end evict

theorem notMem_register {p : BlockPool} (h : ∀ key, 0 ∉ p.cachedBlockHashToBlock key)
    (key : BlockKey) {b : Nat} (hb : b ≠ 0) (k : BlockKey) :
    0 ∉ (p.register key b).cachedBlockHashToBlock k := by
  simp only [register, Function.update_apply]
  split_ifs
  · exact h key
  · simp [h key, hb.symm]
  · exact h k

theorem HashAgree.register (h : HashAgree p) (key : BlockKey) (hb : p.blockHash b = none)
    (hc : p.enableCaching = true) : HashAgree (p.register key b) := by
  have hmem : b ∉ p.cachedBlockHashToBlock key := by
    rw [h.cached_iff, hb]
    simp
  refine ⟨?_, ?_, ?_⟩
  · intro c k
    simp only [BlockPool.register, hmem, if_false]
    by_cases hk : k = key
    · subst hk
      rw [update_self, mem_append, h.cached_iff]
      by_cases hcb : c = b <;> simp [hcb]
    rw [update_of_ne hk, h.cached_iff]
    by_cases hcb : c = b
    · subst hcb
      simp [hb]
      exact fun he => hk he.symm
    · simp [hcb]
  · intro k
    simp only [BlockPool.register, hmem]
    by_cases hk : k = key
    · subst hk
      rw [update_self]
      exact Nodup.append (h.cached_nodup k) (by simp) (by simpa using hmem)
    · rw [update_of_ne hk]
      exact h.cached_nodup k
  · intro hoff
    simp [BlockPool.register, hc] at hoff

theorem HashOK.register (h : HashOK p) (key : BlockKey) (hb : p.blockHash b = none)
    (hlt : 0 < b ∧ b < p.numGpuBlocks) (hc : p.enableCaching = true) :
    HashOK (p.register key b) := by
  refine (h.agree.register key hb hc).hashOK (fun c k => ?_)
  by_cases hcb : c = b
  · subst hcb
    exact fun _ => hlt
  · simpa [BlockPool.register, hcb] using h.cached_lt c k

structure Handed (p p' : BlockPool) (ret : List Nat) : Prop where
  config : SameConfig p p'
  free : p'.freeBlockQueue = p.freeBlockQueue
  numFree : p'.numFreeBlocks = p.numFreeBlocks
  refCnt : ∀ b, p'.refCnt b = p.refCnt b + ret.count b
  hash : ∀ b, p'.blockHash b = if b ∈ ret then none else p.blockHash b
  written : ∀ w, w ∈ p'.written ↔ w ∈ p.written ∧ w.1 ∉ ret
  hashOK : HashOK p'

theorem handOut_spec (hh : HashOK p) (hb : p.refCnt b = 0) :
    ∃ p', p.handOut b = .ok p' ∧ Handed p p' [b] := by
  have hcfg : SameConfig p (if p.enableCaching then p.maybeEvictCachedBlock b else p) := by
    split <;> [exact maybeEvict_sameConfig p b; exact SameConfig.refl p]
  refine ⟨_, by simp only [handOut]; rw [if_pos (by split <;> simpa using hb)], ?_⟩
  refine ⟨⟨hcfg.num, hcfg.caching, hcfg.hashSize⟩, ?_, ?_, ?_, ?_, ?_, ?_⟩
  · split <;> simp
  · split <;> simp
  · intro c
    have hr : (if p.enableCaching then p.maybeEvictCachedBlock b else p).refCnt = p.refCnt := by
      split <;> simp
    simp only [hr]
    by_cases hc : c = b
    · simp [hc]
    · simp [hc, Ne.symm hc]
  · intro c
    by_cases hoff : p.enableCaching = true
    · simp only [hoff, if_true]
      rw [hh.maybeEvict_blockHash]
      by_cases hc : c = b <;> simp [hc]
    · simp [hoff, hh.off (by simpa using hoff)]
  · have hw : (if p.enableCaching then p.maybeEvictCachedBlock b else p).written = p.written := by
      split <;> simp
    simp [hw]
  · have hp : HashOK (if p.enableCaching then p.maybeEvictCachedBlock b else p) := by
      split <;> [exact hh.maybeEvict b; exact hh]
    exact ⟨hp.cached_iff, hp.cached_nodup, hp.cached_lt, hp.off⟩

theorem handOut_foldlM (hh : HashOK p) {ret : List Nat} (hn : ret.Nodup)
    (hz : ∀ b ∈ ret, p.refCnt b = 0) : ∃ p', ret.foldlM handOut p = .ok p' ∧ Handed p p' ret := by
  induction ret generalizing p with
  | nil => exact ⟨p, rfl, SameConfig.refl p, rfl, rfl, by simp, by simp, by simp, hh⟩
  | cons b bs ih =>
    rw [nodup_cons] at hn
    obtain ⟨p1, h1, hs⟩ := handOut_spec hh (hz b (by simp))
    have hz' : ∀ c ∈ bs, p1.refCnt c = 0 := by
      intro c hc
      have hcb : c ≠ b := fun he => hn.1 (he ▸ hc)
      rw [hs.refCnt, hz c (by simp [hc])]
      simp [Ne.symm hcb]
    obtain ⟨p2, h2, ht⟩ := ih hs.hashOK hn.2 hz'
    refine ⟨p2, ?_, hs.config.trans ht.config, ht.free.trans hs.free,
      ht.numFree.trans hs.numFree, ?_, ?_, ?_, ht.hashOK⟩
    · rw [foldlM_cons, h1]
      exact h2
    · intro c
      rw [ht.refCnt, hs.refCnt]
      simp only [count_cons, count_nil]
      push_cast
      ring
    · intro c
      rw [ht.hash, hs.hash]
      by_cases hcb : c = b <;> simp [hcb]
    · intro w
      rw [ht.written, hs.written]
      simp only [mem_cons, not_mem_nil]
      tauto

/-- Effect of `get_new_blocks(n)`: the first `n` free blocks, now referenced once. -/
structure NewBlocks (p p' : BlockPool) (n : Int) (ret : List Nat) : Prop where
  config : SameConfig p p'
  ret_eq : ret = p.freeBlockQueue.take n.toNat
  free : p'.freeBlockQueue = p.freeBlockQueue.drop n.toNat
  length : ret.length = n.toNat
  nodup : ret.Nodup
  fresh : ∀ b ∈ ret, 0 < b ∧ b < p.numGpuBlocks ∧ p.refCnt b = 0
  numFree : p'.numFreeBlocks = p.numFreeBlocks - n
  refCnt : ∀ b, p'.refCnt b = p.refCnt b + ret.count b
  hash : ∀ b, p'.blockHash b = if b ∈ ret then none else p.blockHash b
  written : ∀ w, w ∈ p'.written ↔ w ∈ p.written ∧ w.1 ∉ ret
  poolOK : PoolOK p'
  hashOK : HashOK p'

theorem getNewBlocks_of_le (hp : PoolOK p) (hh : HashOK p) {n : Int} (h0 : 0 ≤ n)
    (hn : n ≤ p.numFreeBlocks) :
    ∃ p' ret, p.getNewBlocks n = .ok (p', ret) ∧ NewBlocks p p' n ret := by
  have hlen : n.toNat ≤ p.freeBlockQueue.length := by
    have := hp.count
    omega
  set ret := p.freeBlockQueue.take n.toNat with hret
  have hfresh : ∀ b ∈ ret, 0 < b ∧ b < p.numGpuBlocks ∧ p.refCnt b = 0 :=
    fun b hb => (hp.mem_iff b).mp (mem_of_mem_take hb)
  have hnodup : ret.Nodup := hp.nodup.sublist (take_sublist _ _)
  set q : BlockPool := { p with
    numFreeBlocks := p.numFreeBlocks - n
    freeBlockQueue := p.freeBlockQueue.drop n.toNat } with hq
  have hqh : HashOK q := ⟨hh.cached_iff, hh.cached_nodup, hh.cached_lt, hh.off⟩
  have hpop : p.popleftN n = .ok (q, ret) := by
    unfold popleftN
    by_cases hz : n = 0
    · subst hz
      simp [hq, hret]
    · rw [if_neg hz, if_neg (by omega), if_neg (by omega)]
  obtain ⟨p', hfold, hs⟩ := handOut_foldlM hqh hnodup (fun b hb => (hfresh b hb).2.2)
  refine ⟨p', ret, ?_, ?_⟩
  · unfold getNewBlocks
    rw [if_neg (by omega), hpop]
    change (do let p ← ret.foldlM handOut q; return (p, ret)) = _
    rw [hfold]
    rfl
  have hsplit : p.freeBlockQueue = ret ++ p.freeBlockQueue.drop n.toNat :=
    (take_append_drop _ _).symm
  have hdisj := hp.nodup
  rw [hsplit, nodup_append'] at hdisj
  refine ⟨⟨hs.config.num, hs.config.caching, hs.config.hashSize⟩, hret, hs.free, ?_, hnodup,
    hfresh, hs.numFree, hs.refCnt, hs.hash, hs.written, ?_, hs.hashOK⟩
  · simp [hret, hlen]
  refine ⟨?_, ?_, ?_, ?_⟩
  · rw [hs.free]
    exact hdisj.2.1
  · intro b
    rw [hs.free, hs.refCnt, hs.config.num]
    change b ∈ p.freeBlockQueue.drop n.toNat ↔ 0 < b ∧ b < p.numGpuBlocks ∧
      p.refCnt b + ret.count b = 0
    by_cases hb : b ∈ ret
    · have hc : ret.count b = 1 := count_eq_one_of_mem hnodup hb
      have := (hfresh b hb).2.2
      constructor
      · intro hd
        exact absurd hd (hdisj.2.2 hb)
      · omega
    have hc : ret.count b = 0 := count_eq_zero.mpr hb
    rw [hc]
    have := hp.mem_iff b
    rw [hsplit, mem_append] at this
    simp only [hb] at this
    simpa using this
  · rw [hs.free, hs.numFree]
    have := hp.count
    simp only [hq, length_drop]
    omega
  · intro b hb
    have := hp.nonneg b hb
    rw [hs.refCnt]
    change 0 ≤ p.refCnt b + _
    omega

theorem getNewBlocks_spec {n : Int} {ret : List Nat} (hp : PoolOK p) (hh : HashOK p) (h0 : 0 ≤ n)
    (h : p.getNewBlocks n = .ok (p', ret)) : NewBlocks p p' n ret := by
  by_cases hn : n ≤ p.numFreeBlocks
  · obtain ⟨q, r, hq, hs⟩ := getNewBlocks_of_le hp hh h0 hn
    rw [h] at hq
    cases hq
    exact hs
  · unfold getNewBlocks at h
    rw [if_pos (by omega)] at h
    cases h

structure Touched (p p' : BlockPool) (blocks : List Nat) : Prop where
  config : SameConfig p p'
  refCnt : ∀ b, p'.refCnt b = p.refCnt b + blocks.count b
  hash : p'.blockHash = p.blockHash
  cached : p'.cachedBlockHashToBlock = p.cachedBlockHashToBlock
  written : p'.written = p.written
  numFree : p.numFreeBlocks - p.getNumEvictableBlocks blocks ≤ p'.numFreeBlocks
  poolOK : PoolOK p'

theorem touchOne_spec (hp : PoolOK p) (hb : b = 0 ∨ b < p.numGpuBlocks) :
    ∃ p', p.touchOne b = .ok p' ∧ Touched p p' [b] := by
  have hcount (c : Nat) : update p.refCnt b (p.refCnt b + 1) c =
      p.refCnt c + ([b].count c : Int) := by
    by_cases hc : c = b
    · simp [hc]
    · simp [hc, Ne.symm hc]
  by_cases h : p.refCnt b = 0 ∧ b ≠ 0
  · have hmem : b ∈ p.freeBlockQueue := (hp.mem_iff b).mpr ⟨by omega, by omega, h.1⟩
    have heq : p.touchOne b = .ok { p with
        freeBlockQueue := p.freeBlockQueue.erase b
        numFreeBlocks := p.numFreeBlocks - 1
        refCnt := update p.refCnt b (p.refCnt b + 1) } := by
      rw [touchOne, if_pos h, if_pos hmem]
    refine ⟨_, heq, ⟨rfl, rfl, rfl⟩, hcount, rfl, rfl, rfl, ?_, ?_⟩
    · simp [getNumEvictableBlocks, h]
    refine ⟨hp.nodup.erase b, ?_, ?_, ?_⟩
    · intro c
      simp only [hp.nodup.mem_erase_iff, hp.mem_iff]
      by_cases hc : c = b
      · simp [hc, h.1]
      · simp [hc]
    · have hpos : 0 < p.freeBlockQueue.length := length_pos_of_mem hmem
      have := hp.count
      simp only [length_erase_of_mem hmem]
      omega
    · intro c hc
      simp only [hcount]
      have := hp.nonneg c hc
      omega
  · have heq : p.touchOne b = .ok { p with
        refCnt := update p.refCnt b (p.refCnt b + 1) } := by
      rw [touchOne, if_neg h]
    refine ⟨_, heq, ⟨rfl, rfl, rfl⟩, hcount, rfl, rfl, rfl, ?_, ?_⟩
    · simp
    refine ⟨hp.nodup, ?_, hp.count, ?_⟩
    · intro c
      simp only [hp.mem_iff]
      by_cases hc : c = b
      · subst hc
        have := hp.nonneg c
        simp only [update_self]
        omega
      · simp [hc]
    · intro c hc
      simp only [hcount]
      have := hp.nonneg c hc
      omega

theorem touch_spec (hp : PoolOK p) (hb : ∀ b ∈ blocks, b = 0 ∨ b < p.numGpuBlocks) :
    ∃ p', p.touch blocks = .ok p' ∧ Touched p p' blocks := by
  induction blocks generalizing p with
  | nil => exact ⟨p, rfl, SameConfig.refl p, by simp, rfl, rfl, rfl, by simp, hp⟩
  | cons b bs ih =>
    obtain ⟨p1, h1, hs⟩ := touchOne_spec hp (hb b (by simp))
    obtain ⟨p2, h2, ht⟩ := ih hs.poolOK (fun c hc => by
      rw [hs.config.num]
      exact hb c (by simp [hc]))
    refine ⟨p2, ?_, hs.config.trans ht.config, ?_, ht.hash.trans hs.hash,
      ht.cached.trans hs.cached, ht.written.trans hs.written, ?_, ht.poolOK⟩
    · rw [touch, foldlM_cons, h1]
      exact h2
    · intro c
      rw [ht.refCnt, hs.refCnt]
      simp only [count_cons, count_nil]
      push_cast
      ring
    · -- a block evictable after the first touch was evictable before
      have hle : p1.getNumEvictableBlocks bs ≤ p.getNumEvictableBlocks bs := by
        refine countP_mono_left ?_
        intro c _ hc
        have hr := hs.refCnt c
        have hnn := hp.nonneg c
        simp only [decide_eq_true_eq] at hc ⊢
        omega
      have h1' := hs.numFree
      have h2' := ht.numFree
      simp only [getNumEvictableBlocks, countP_cons, countP_nil] at hle h1' h2' ⊢
      omega

theorem foldl_release (bs : List Nat) (r : Nat → Int) (b : Nat) :
    bs.foldl (fun r b => update r b (r b - 1)) r b = r b - bs.count b := by
  induction bs generalizing r with
  | nil => simp
  | cons c cs ih =>
    rw [foldl_cons, ih]
    by_cases h : b = c
    · subst h
      simp
      ring
    · simp [h, Ne.symm h]

structure Freed (p p' : BlockPool) (blocks : List Nat) : Prop where
  config : SameConfig p p'
  refCnt : ∀ b, p'.refCnt b = p.refCnt b - blocks.count b
  hash : p'.blockHash = p.blockHash
  cached : p'.cachedBlockHashToBlock = p.cachedBlockHashToBlock
  written : p'.written = p.written
  numFree : p.numFreeBlocks ≤ p'.numFreeBlocks
  poolOK : PoolOK p'

theorem freeBlocks_spec (hp : PoolOK p) (hlt : ∀ b ∈ blocks, b ≠ 0 → b < p.numGpuBlocks)
    (honce : ∀ b, b ≠ 0 → blocks.count b ≤ 1) (hheld : ∀ b ∈ blocks, b ≠ 0 → 1 ≤ p.refCnt b) :
    Freed p (p.freeBlocks blocks) blocks := by
  have hcount (b : Nat) : (p.freeBlocks blocks).refCnt b = p.refCnt b - blocks.count b :=
    foldl_release blocks p.refCnt b
  set freed := blocks.filter (fun b => (p.freeBlocks blocks).refCnt b = 0 ∧ b ≠ 0) with hfreed
  have hfree : (p.freeBlocks blocks).freeBlockQueue = p.freeBlockQueue ++ freed := rfl
  have hnum : (p.freeBlocks blocks).numFreeBlocks = p.numFreeBlocks + freed.length := rfl
  have hmem (b : Nat) : b ∈ freed ↔ b ∈ blocks ∧ p.refCnt b - blocks.count b = 0 ∧ b ≠ 0 := by
    simp [hfreed, hcount]
  have hnodup : freed.Nodup := by
    rw [nodup_iff_count_le_one]
    intro b
    by_cases hb : b ∈ freed
    · exact (filter_sublist.count_le b).trans (honce b ((hmem b).mp hb).2.2)
    · simp [count_eq_zero.mpr hb]
  refine ⟨⟨rfl, rfl, rfl⟩, hcount, rfl, rfl, rfl, by rw [hnum]; omega, ?_⟩
  refine ⟨?_, ?_, ?_, ?_⟩
  · refine Nodup.append hp.nodup hnodup ?_
    intro b hb hb'
    have h1 := (hp.mem_iff b).mp hb
    have h2 := (hmem b).mp hb'
    have := hheld b h2.1 h2.2.2
    omega
  · intro b
    rw [hfree, mem_append, hp.mem_iff, hmem, hcount]
    change _ ↔ 0 < b ∧ b < p.numGpuBlocks ∧ _
    by_cases hb : b ∈ blocks
    · have hb0 := hlt b hb
      have h1 := hheld b hb
      constructor
      · rintro (h | h)
        · exact absurd h.2.2 (by have := h1 (by omega); omega)
        · exact ⟨by omega, hb0 h.2.2, h.2.1⟩
      · intro h
        exact .inr ⟨hb, h.2.2, by omega⟩
    · rw [count_eq_zero.mpr hb]
      simp [hb]
  · rw [hfree, hnum, hp.count]
    simp
  · intro b hb
    rw [hcount]
    by_cases hbm : b ∈ blocks
    · have := hheld b hbm hb
      have := honce b hb
      omega
    · have := hp.nonneg b hb
      rw [count_eq_zero.mpr hbm]
      omega

/-- Only hashes change: a block of `blocks` without a hash may get the hash of its place. -/
structure Filled (p p' : BlockPool) (groupId : Nat) (blocks : List Nat)
    (hashes : List (List BlockHash)) : Prop where
  config : SameConfig p p'
  refCnt : p'.refCnt = p.refCnt
  free : p'.freeBlockQueue = p.freeBlockQueue
  numFree : p'.numFreeBlocks = p.numFreeBlocks
  written : p'.written = p.written
  hash : ∀ b, p'.blockHash b = p.blockHash b ∨ b ≠ 0 ∧ p.blockHash b = none ∧
    ∃ (i : Nat) (h : List BlockHash), blocks[i]? = some b ∧ hashes[i]? = some h ∧
      p'.blockHash b = some (h, groupId)
  filled : ∀ b ∈ blocks, b ≠ 0 → (p'.blockHash b).isSome
  hashOK : HashOK p'

theorem cacheFullBlocksFrom_spec (hh : HashOK p) (hc : p.enableCaching = true)
    (hlt : ∀ b ∈ blocks, b ≠ 0 → b < p.numGpuBlocks)
    (h : cacheFullBlocksFrom groupId p blocks hashes = .ok p') :
    Filled p p' groupId blocks hashes := by
  induction blocks generalizing p hashes with
  | nil =>
    cases h
    exact ⟨SameConfig.refl _, rfl, rfl, rfl, rfl, fun b => .inl rfl, by simp, hh⟩
  | cons b bs ih =>
    unfold cacheFullBlocksFrom at h
    by_cases hb : b = 0
    · rw [if_pos hb] at h
      have hs := ih hh hc (fun c hc' => hlt c (by simp [hc'])) h
      refine ⟨hs.config, hs.refCnt, hs.free, hs.numFree, hs.written, ?_, ?_, hs.hashOK⟩
      · intro c
        rcases hs.hash c with hsame | ⟨h0, hnone, i, k, hi, hk, hset⟩
        · exact .inl hsame
        · exact .inr ⟨h0, hnone, i + 1, k, hi, by simpa using hk, hset⟩
      intro c hcm hc0
      rcases mem_cons.mp hcm with rfl | hcm
      · exact absurd hb hc0
      · exact hs.filled c hcm hc0
    rw [if_neg hb] at h
    cases hbh : p.blockHash b with
    | some key => simp [hbh] at h
    | none =>
      cases hhd : hashes.head? with
      | none => simp [hbh, hhd] at h
      | some k =>
        simp only [hbh, hhd, Option.isSome_none, Bool.false_eq_true] at h
        have hr := hh.register (k, groupId) hbh ⟨by omega, hlt b (by simp) hb⟩ hc
        have hs := ih hr hc (fun c hc' => hlt c (by simp [hc'])) h
        have h0 : hashes[0]? = some k := by rwa [← head?_eq_getElem?]
        have hcfg : SameConfig p p' := ⟨hs.config.num, hs.config.caching, hs.config.hashSize⟩
        refine ⟨hcfg, hs.refCnt, hs.free, hs.numFree, hs.written, ?_, ?_, hs.hashOK⟩
        · intro c
          by_cases hcb : c = b
          · subst hcb
            refine .inr ⟨hb, hbh, 0, k, by simp, h0, ?_⟩
            rcases hs.hash c with hsame | ⟨-, hnone, -⟩
            · simpa [register] using hsame
            · simp [register] at hnone
          · rcases hs.hash c with hsame | ⟨hc0, hnone, i, k', hi, hk', hset⟩
            · exact .inl (by simpa [register, hcb] using hsame)
            · exact .inr ⟨hc0, by simpa [register, hcb] using hnone, i + 1, k',
                by simpa using hi, by simpa using hk', hset⟩
        intro c hcm hc0
        rcases mem_cons.mp hcm with rfl | hcm
        · rcases hs.hash c with hsame | ⟨-, hnone, -⟩
          · rw [hsame]
            simp [register]
          · simp [register] at hnone
        · exact hs.filled c hcm hc0

theorem cacheFullBlocksFrom_ok (hnone : ∀ b ∈ blocks, b ≠ 0 → p.blockHash b = none)
    (honce : ∀ b, b ≠ 0 → blocks.count b ≤ 1) (hlen : blocks.length ≤ hashes.length) :
    ∃ p', cacheFullBlocksFrom groupId p blocks hashes = .ok p' := by
  induction blocks generalizing p hashes with
  | nil => exact ⟨p, rfl⟩
  | cons b bs ih =>
    obtain ⟨k, ks, rfl⟩ : ∃ k ks, hashes = k :: ks := by
      cases hashes with
      | nil => simp at hlen
      | cons k ks => exact ⟨k, ks, rfl⟩
    have honce' : ∀ c, c ≠ 0 → bs.count c ≤ 1 := by
      intro c hc
      have := honce c hc
      rw [count_cons] at this
      omega
    have hlen' : bs.length ≤ ks.length := by simpa using hlen
    unfold cacheFullBlocksFrom
    by_cases hb : b = 0
    · rw [if_pos hb]
      exact ih (fun c hc => hnone c (by simp [hc])) honce' hlen'
    rw [if_neg hb]
    simp only [hnone b (by simp) hb, Option.isSome_none, Bool.false_eq_true, if_false, head?_cons]
    refine ih ?_ honce' hlen'
    intro c hc hc0
    have hcb : c ≠ b := by
      rintro rfl
      have := honce c hc0
      rw [count_cons_self] at this
      have := count_pos_iff.mpr hc
      omega
    simpa [register, hcb] using hnone c (by simp [hc]) hc0

theorem cacheFullBlocks_eq
    (h : p.cacheFullBlocks blockHashes tokens blocks numCached numFull blockSize groupId = .ok p')
    (hn : numCached < numFull) :
    ∃ q, cacheFullBlocksFrom groupId p ((blocks.take numFull).drop numCached)
        ((hashesAt blockHashes p.hashBlockSize blockSize).drop numCached) = .ok q ∧
      ((p.enableKvCacheEvents = false ∧ p' = q) ∨ p.enableKvCacheEvents = true ∧ ∃ event,
        storedEvent (hashesAt blockHashes p.hashBlockSize blockSize) tokens blocks numCached numFull
          blockSize groupId = .ok event ∧
        p' = { q with kvEventQueue := q.kvEventQueue ++ [event] }) := by
  unfold cacheFullBlocks at h
  rw [if_neg (by omega)] at h
  split_ifs at h with h1 h2 hev
  · simp only [seq_ok_iff] at h
    obtain ⟨q, hq, event, hevent, h⟩ := h
    exact ⟨q, hq, .inr ⟨hev, event, hevent, (Except.ok.inj h).symm⟩⟩
  · rw [seq_ok_iff] at h
    obtain ⟨q, hq, h⟩ := h
    exact ⟨q, hq, .inl ⟨by simpa using hev, (Except.ok.inj h).symm⟩⟩

theorem cacheFullBlocks_spec (hh : HashOK p) (hc : p.enableCaching = true)
    (hlt : ∀ b ∈ blocks, b ≠ 0 → b < p.numGpuBlocks)
    (h : p.cacheFullBlocks blockHashes tokens blocks numCached numFull blockSize groupId = .ok p')
    (hn : numCached < numFull) :
    Filled p p' groupId ((blocks.take numFull).drop numCached)
      ((hashesAt blockHashes p.hashBlockSize blockSize).drop numCached) := by
  obtain ⟨q, hq, hcase⟩ := cacheFullBlocks_eq h hn
  have hf := cacheFullBlocksFrom_spec hh hc
    (fun b hb => hlt b (mem_of_mem_take (mem_of_mem_drop hb))) hq
  rcases hcase with ⟨-, rfl⟩ | ⟨-, event, -, rfl⟩
  · exact hf
  · exact ⟨⟨hf.config.num, hf.config.caching, hf.config.hashSize⟩, hf.refCnt, hf.free, hf.numFree,
      hf.written, hf.hash, hf.filled,
      ⟨hf.hashOK.cached_iff, hf.hashOK.cached_nodup, hf.hashOK.cached_lt, hf.hashOK.off⟩⟩

theorem cacheFullBlocks_ok (hn : numCached < numFull) (hlen : numFull ≤ blockHashes.length)
    (hdvd : p.hashBlockSize ∣ blockSize)
    (hhashes : numFull ≤ (hashesAt blockHashes p.hashBlockSize blockSize).length)
    (hblocks : numFull ≤ blocks.length)
    (hq : cacheFullBlocksFrom groupId p ((blocks.take numFull).drop numCached)
      ((hashesAt blockHashes p.hashBlockSize blockSize).drop numCached) = .ok q) :
    ∃ p', p.cacheFullBlocks blockHashes tokens blocks numCached numFull blockSize groupId =
      .ok p' := by
  have hevent : ∃ event, storedEvent (hashesAt blockHashes p.hashBlockSize blockSize) tokens blocks
      numCached numFull blockSize groupId = .ok event := by
    exact ⟨_, if_neg (by omega)⟩
  obtain ⟨event, hevent⟩ := hevent
  unfold cacheFullBlocks
  rw [if_neg (by omega), if_neg (by omega), if_neg (by simpa using Nat.mod_eq_zero_of_dvd hdvd)]
  simp only [hq, hevent, bind, Except.bind, pure]
  split_ifs
  · exact ⟨_, rfl⟩
  · exact ⟨_, rfl⟩

structure Evicted (p p' : BlockPool) : Prop where
  config : SameConfig p p'
  refCnt : p'.refCnt = p.refCnt
  free : p'.freeBlockQueue = p.freeBlockQueue
  numFree : p'.numFreeBlocks = p.numFreeBlocks
  written : p'.written = p.written
  hash : ∀ b, p'.blockHash b = p.blockHash b ∨ p'.blockHash b = none
  hashOK : HashOK p'

theorem Evicted.refl (hh : HashOK p) : Evicted p p :=
  ⟨SameConfig.refl p, rfl, rfl, rfl, rfl, fun _ => Or.inl rfl, hh⟩

theorem Evicted.trans {r : BlockPool} (h : Evicted p q) (h' : Evicted q r) : Evicted p r := by
  refine ⟨h.config.trans h'.config, h'.refCnt.trans h.refCnt, h'.free.trans h.free,
    h'.numFree.trans h.numFree, h'.written.trans h.written, ?_, h'.hashOK⟩
  intro b
  rcases h'.hash b with h1 | h1
  · rw [h1]
    exact h.hash b
  · exact .inr h1

theorem maybeEvict_evicted (hh : HashOK p) (b : Nat) : Evicted p (p.maybeEvictCachedBlock b) := by
  refine ⟨maybeEvict_sameConfig p b, by simp, by simp, by simp, by simp, ?_, hh.maybeEvict b⟩
  intro c
  rw [hh.maybeEvict_blockHash]
  by_cases hc : c = b <;> simp [hc]

theorem evictBlocks_evicted {ids : List Nat} (hh : HashOK p) (h : p.evictBlocks ids = .ok p') :
    Evicted p p' := by
  induction ids generalizing p with
  | nil =>
    cases h
    exact Evicted.refl hh
  | cons b bs ih =>
    rw [evictBlocks, foldlM_cons, seq_ok_iff] at h
    obtain ⟨q, hq, h⟩ := h
    split_ifs at hq
    cases hq
    exact (maybeEvict_evicted hh b).trans (ih (hh.maybeEvict b) h)

theorem resetPrefixCache_evicted (hh : HashOK p) : Evicted p p.resetPrefixCache.1 := by
  unfold resetPrefixCache
  split_ifs with h
  · exact Evicted.refl hh
  · refine ⟨⟨rfl, rfl, rfl⟩, rfl, rfl, rfl, rfl, fun _ => .inr rfl, ?_⟩
    constructor <;> simp

theorem PoolOK.numFree_le (hp : PoolOK p) : p.numFreeBlocks ≤ p.numGpuBlocks := by
  have hsub : p.freeBlockQueue ⊆ range p.numGpuBlocks := fun b hb =>
    mem_range.mpr ((hp.mem_iff b).mp hb).2.1
  have hlen := (subperm_of_subset hp.nodup hsub).length_le
  rw [length_range] at hlen
  rw [hp.count]
  exact_mod_cast hlen

theorem PoolOK.of_eq (hp : PoolOK p) (hc : SameConfig p p') (hr : p'.refCnt = p.refCnt)
    (hf : p'.freeBlockQueue = p.freeBlockQueue) (hn : p'.numFreeBlocks = p.numFreeBlocks) :
    PoolOK p' := by
  refine ⟨by rw [hf]; exact hp.nodup, ?_, by rw [hf, hn]; exact hp.count, ?_⟩
  · intro b
    rw [hf, hr, hc.num]
    exact hp.mem_iff b
  · intro b hb
    rw [hr]
    exact hp.nonneg b hb

theorem HashOK.of_eq (hh : HashOK p) (hc : SameConfig p p') (hb : p'.blockHash = p.blockHash)
    (hm : p'.cachedBlockHashToBlock = p.cachedBlockHashToBlock) : HashOK p' := by
  refine ⟨?_, ?_, ?_, ?_⟩
  · rw [hb, hm]
    exact hh.cached_iff
  · rw [hm]
    exact hh.cached_nodup
  · rw [hb, hc.num]
    exact hh.cached_lt
  · rw [hb, hc.caching]
    exact hh.off

end TailBlend.BlockPool
