import TailBlend.CacheEvents
import TailBlend.SlotLedger

/-! How the steady properties of the pool pass through the operations of the managers and through
`allocate_slots`. -/
namespace TailBlend

namespace BlockPool
open Manager Ownership
variable {α : Type} [DecidableEq α] {Q : BlockPool → Prop} {p p' : BlockPool} {m m' : Manager α}
  {r : α}

theorem Steady.touchComputed (hQ : Steady Q) (h : Q p) {blocks : List Nat}
    (he : touchComputed p blocks = .ok p') : Q p' := by
  unfold Manager.touchComputed at he
  split_ifs at he
  · exact hQ.touch h he
  · cases he
    exact h

theorem Steady.allocateComputed (hQ : Steady Q) (h : Q p) {hits : List Nat} {loc ext : Int}
    (he : m.allocateNewComputedBlocks p r hits loc ext = .ok (p', m')) :
    Q p' ∧ m'.spec = m.spec := by
  have hadd (he : m.addComputedBlocks p r hits loc ext = .ok (p', m')) :
      Q p' ∧ m'.spec = m.spec := by
    obtain ⟨-, p1, htouch, he⟩ := addComputed_inv he
    have h1 : Q p1 := hQ.touchComputed h htouch
    rcases he with ⟨ret, -, hget, rfl⟩ | ⟨-, rfl, rfl⟩
    · exact ⟨hQ.take h1 hget, by simp [setBlocks, withComputed]⟩
    · exact ⟨h1, rfl⟩
  unfold allocateNewComputedBlocks at he
  split at he
  · split_ifs at he
    cases he
    exact ⟨h, rfl⟩
  split_ifs at he
  · cases he
    exact ⟨h, rfl⟩
  · exact hadd he

theorem Steady.allocateNewBlocks (hQ : Steady Q) (h : Q p) {t tm : Int} {xs : List Nat}
    (he : m.allocateNewBlocks p r t tm = .ok (p', m', xs)) : Q p' ∧ m'.spec = m.spec := by
  have hbase {t : Int} (he : m.baseAllocateNewBlocks p r t = .ok (p', m', xs)) :
      Q p' ∧ m'.spec = m.spec := by
    unfold baseAllocateNewBlocks at he
    simp only at he
    split_ifs at he
    · cases he
      exact ⟨h, rfl⟩
    rw [seq_ok_iff] at he
    obtain ⟨⟨q, ret⟩, hget, he⟩ := he
    cases he
    exact ⟨hQ.take h hget, by simp [setBlocks]⟩
  unfold Manager.allocateNewBlocks at he
  split at he
  · split_ifs at he
    · exact hbase he
    unfold alignAllocateNewBlocks at he
    simp only at he
    split at he
    · cases he
      exact ⟨h, rfl⟩
    split at he
    · cases he
    simp only [seq_ok_iff] at he
    obtain ⟨moved, -, -, -, ⟨q, ret⟩, hget, he⟩ := he
    cases he
    exact ⟨hQ.take h hget, rfl⟩
  · exact hbase he

theorem freeAll_frees (hfree : ∀ {q : BlockPool} (bs : List Nat), Q q → Q (q.freeBlocks bs))
    (r : α) {ms : List (Manager α)} (h : Q p) : Q (KVCacheManager.freeAll r p ms).1 := by
  induction ms generalizing p with
  | nil => exact h
  | cons m ms ih => exact ih (hfree (m.blocks r).reverse h)

end BlockPool

namespace Ownership
open BlockPool Manager KVCacheManager
variable {α : Type} [DecidableEq α] {Q R : BlockPool → Prop}

section managers
variable {p p' : BlockPool} {m m' : Manager α} {req : KVRequest α}

/-- The part of `cache_blocks` that is the same for all managers. -/
structure CachedRange (p p' : BlockPool) (m m' : Manager α) (req : KVRequest α) (numFull : Nat) :
    Prop where
  spec : m'.spec = m.spec
  blocks : ∀ a, m'.blocks a = m.blocks a
  cached : ∀ a, numCached m' a =
    if a = req.requestId then max (numCached m a) numFull else numCached m a
  pool : p.cacheFullBlocks req.blockHashes req.allTokenIds (m.blocks req.requestId)
    (numCached m req.requestId) numFull m.blockSize m.groupId = .ok p'

theorem baseCache_range {t : Int}
    (he : m.baseCacheBlocks p req t = .ok (p', m')) :
    CachedRange p p' m m' req (t / m.blockSize).toNat := by
  change (if numCached m req.requestId ≥ (t / m.blockSize).toNat then _ else _) = _ at he
  by_cases hle : numCached m req.requestId ≥ (t / m.blockSize).toNat
  · rw [if_pos hle] at he
    cases he
    refine ⟨rfl, fun _ => rfl, fun a => ?_, ?_⟩
    · split_ifs with ha
      · rw [ha, max_eq_left hle]
      · rfl
    · rw [cacheFullBlocks, if_pos hle]
  rw [if_neg hle, seq_ok_iff] at he
  obtain ⟨q, hcache, he⟩ := he
  cases he
  refine ⟨rfl, fun a => ?_, fun a => ?_, hcache⟩
  · simp only [blocks, setBlocks, Dict.getD_set]
    split_ifs with ha <;> simp [ha]
  simp only [numCached, Dict.getD_set]
  split_ifs with ha
  · subst ha
    exact (max_eq_right (le_of_not_ge hle)).symm
  · rfl

theorem cacheBlocks_range {t : Int}
    (he : m.cacheBlocks p req t = .ok (p', m')) :
    CachedRange p p' m m' req (t / m.blockSize).toNat := by
  unfold Manager.cacheBlocks at he
  split at he
  · cases he
  · simp only [seq_ok_iff] at he
    obtain ⟨⟨q, a⟩, hb, -, -, he⟩ := he
    cases he
    have hr := baseCache_range hb
    exact ⟨hr.spec, hr.blocks, hr.cached, hr.pool⟩
  · exact baseCache_range he

end managers

/-! The loops over the managers: `Q` is about the pool, `P` about every manager. -/

section loops
variable (P P' : Manager α → Prop) {kv kv' : KVCacheManager α} {req : KVRequest α}

omit [DecidableEq α] in
theorem run_rule {ρ : Type} (Q : BlockPool → Prop) {f : Nat → BlockPool → Manager α → Except PyError
    (BlockPool × Manager α × ρ)} {xs : List ρ}
    (hf : ∀ i p m p' m' x, Q p → P m → f i p m = .ok (p', m', x) → Q p' ∧ P' m')
    (hpool : Q kv.pool) (hms : ∀ m ∈ kv.managers, P m) (he : kv.run f = .ok (kv', xs)) :
    Q kv'.pool ∧ (∀ m ∈ kv'.managers, P' m) ∧ kv'.maxModelLen = kv.maxModelLen := by
  have hpost := run_post Q (fun _ => P) (fun _ => P') hf hpool
    (fun i m hm => hms m (List.mem_of_getElem? hm)) he
  refine ⟨hpost.1, fun m hm => ?_, hpost.2.2⟩
  obtain ⟨i, hi⟩ := List.mem_iff_getElem?.mp hm
  exact hpost.2.1 i m hi

theorem removeSkipped_rule (hfree : ∀ {q : BlockPool} (bs : List Nat), Q q → Q (q.freeBlocks bs))
    {r : α} {t : Int}
    (hremove : ∀ p m p' m', P m → m.removeSkippedBlocks p r t = .ok (p', m') → P' m')
    (hpool : Q kv.pool) (hms : ∀ m ∈ kv.managers, P m)
    (he : kv.removeSkippedBlocks r t = .ok kv') :
    Q kv'.pool ∧ (∀ m ∈ kv'.managers, P' m) ∧ kv'.maxModelLen = kv.maxModelLen := by
  obtain ⟨f, us, hrun, hf⟩ := run_of_calls he
  refine run_rule P P' Q (fun i p m p' m' x hp hm hs => ?_) hpool hms hrun
  have hstep := hf hs
  exact ⟨removeSkipped_moves (fun q _ => Q q) hp (fun _ _ _ removed hq _ => hfree removed hq) hstep,
    hremove p m p' m' hm hstep⟩

theorem cacheBlocks_rule {t : Int}
    (hcache : ∀ p m p' m', p.enableCaching = true → R p → P m →
      m.cacheBlocks p req t = .ok (p', m') → R p' ∧ P m')
    (hon : kv.pool.enableCaching = true) (hpool : R kv.pool) (hms : ∀ m ∈ kv.managers, P m)
    (he : kv.coordinatorCacheBlocks req t = .ok kv') :
    R kv'.pool ∧ ∀ m ∈ kv'.managers, P m := by
  obtain ⟨f, us, hrun, hf⟩ := run_of_calls he
  have hpost := run_rule P P (fun p => p.enableCaching = true ∧ R p)
    (fun i p m p' m' x hp hm hs => ?_) ⟨hon, hpool⟩ hms hrun
  · exact ⟨hpost.1.2, hpost.2.1⟩
  · have hstep := hf hs
    obtain ⟨hR, hP⟩ := hcache p m p' m' hp.1 hp.2 hm hstep
    exact ⟨⟨(cacheFullBlocks_config (cacheBlocks_range hstep).pool).1.trans hp.1, hR⟩, hP⟩

/-- What holds after `allocate_slots`: `Q` until blocks are cached, `R` from then on. Only the
trimming at the start reads what `P₀` says about the managers. -/
theorem allocateSlots_rule (P₀ : Manager α → Prop) {a : SlotArgs}
    {res : Option (List (List Nat))} (hQ : Steady Q) (hQR : ∀ p, Q p → R p)
    (hstart : ∀ m, P₀ m → P m)
    (hremove : ∀ p m p' m', P₀ m → m.removeSkippedBlocks p req.requestId
      (kv.totalComputedTokens req a) = .ok (p', m') → P m')
    (hcomputed : ∀ p m p' m' hits, Q p → P m → m.allocateNewComputedBlocks p req.requestId hits
      (numLocalComputedTokens req a) a.numExternalComputedTokens = .ok (p', m') → P m')
    (hnew : ∀ p m p' m' t tm xs, Q p → P m →
      m.allocateNewBlocks p req.requestId t tm = .ok (p', m', xs) → P m')
    (hcache : ∀ p m p' m' t, p.enableCaching = true → R p → P m →
      m.cacheBlocks p req t = .ok (p', m') → R p' ∧ P m')
    (hpool : Q kv.pool) (hms : ∀ m ∈ kv.managers, P₀ m)
    (he : kv.allocateSlots req a = .ok (kv', res)) : R kv'.pool ∧ ∀ m ∈ kv'.managers, P m := by
  obtain rfl | ⟨kv1, he1, hend⟩ := allocateSlots_inv he
  · exact ⟨hQR _ hpool, fun m hm => hstart m (hms m hm)⟩
  obtain ⟨hp1, hm1, -⟩ := removeSkipped_rule P₀ P hQ.free hremove hpool hms he1
  obtain rfl | ⟨xs, hcommit⟩ := hend
  · exact ⟨hQR _ hp1, hm1⟩
  simp only [commitSlots, seq_ok_iff] at hcommit
  obtain ⟨kv2, he2, ⟨kv3, ys⟩, he3, kv4, he4, hcommit⟩ := hcommit
  cases hcommit
  have h2 : Q kv2.pool ∧ ∀ m ∈ kv2.managers, P m := by
    simp only [commitComputed] at he2
    split_ifs at he2
    · obtain ⟨f, us, hrun, hf⟩ := run_of_calls he2
      have hpost := run_rule P P Q (fun i p m p' m' x hp hm hs => ?_) hp1 hm1 hrun
      · exact ⟨hpost.1, hpost.2.1⟩
      · have hstep := hf hs
        exact ⟨(hQ.allocateComputed hp hstep).1, hcomputed p m p' m' _ hp hm hstep⟩
    · cases he2
      exact ⟨hp1, hm1⟩
  obtain ⟨hp3, hm3, -⟩ := run_rule P P Q (fun i p m p' m' x hp hm hs =>
    ⟨(hQ.allocateNewBlocks hp hs).1, hnew p m p' m' _ _ x hp hm hs⟩) h2.1 h2.2 he3
  unfold commitCache at he4
  split_ifs at he4 with hoff
  · cases he4
    exact ⟨hQR _ hp3, hm3⟩
  · have hon : kv3.pool.enableCaching = true := by
      simpa using fun h => hoff (.inl h)
    exact cacheBlocks_rule P (fun p m p' m' => hcache p m p' m' _) hon (hQR _ hp3) hm3 he4

end loops

/-- A property of the pool alone that no operation breaks. -/
structure Closed (Q : BlockPool → Prop) : Prop where
  steady : Steady Q
  cache : ∀ {p p' : BlockPool} {hashes : List BlockHash} {tokens : List Int} {blocks : List Nat}
    {numCached numFull blockSize groupId : Nat}, p.enableCaching = true → Q p →
    p.cacheFullBlocks hashes tokens blocks numCached numFull blockSize groupId = .ok p' → Q p'
  evict : ∀ {p p' : BlockPool} {ids : List Nat}, Q p → p.evictBlocks ids = .ok p' → Q p'
  reset : ∀ {p : BlockPool}, Q p → Q p.resetPrefixCache.1

section closed
variable {kv kv' : KVCacheManager α}

theorem Closed.allocateSlots (hQ : Closed Q) (h : Q kv.pool) {req : KVRequest α} {a : SlotArgs}
    {res : Option (List (List Nat))} (he : kv.allocateSlots req a = .ok (kv', res)) :
    Q kv'.pool :=
  (allocateSlots_rule (fun _ => True) (fun _ => True) hQ.steady (fun _ h => h)
    (fun _ h => h) (fun _ _ _ _ _ _ => trivial) (fun _ _ _ _ _ _ _ _ => trivial)
    (fun _ _ _ _ _ _ _ _ _ _ => trivial)
    (fun _ _ _ _ _ hon h _ hs => ⟨hQ.cache hon h (cacheBlocks_range hs).pool, trivial⟩)
    h (fun _ _ => trivial) he).1

theorem Closed.step (hQ : Closed Q) (h : Q kv.pool) {op : Op α}
    (he : Ownership.step kv op = .ok kv') : Q kv'.pool := by
  cases op with
  | newRequest req n k ext enc delay fit =>
    simp only [Ownership.step, seq_ok_iff] at he
    obtain ⟨⟨hits, cached⟩, -, ⟨kv1, res⟩, hslots, he⟩ := he
    cases he
    exact hQ.allocateSlots h hslots
  | allocate req n k enc delay fit =>
    simp only [Ownership.step, seq_ok_iff] at he
    obtain ⟨⟨kv1, res⟩, hslots, he⟩ := he
    cases he
    exact hQ.allocateSlots h hslots
  | cacheBlocks req t =>
    simp only [Ownership.step, KVCacheManager.cacheBlocks] at he
    split_ifs at he with hon
    · exact (cacheBlocks_rule (fun _ => True) (fun _ _ _ _ hon h _ hs =>
        ⟨hQ.cache hon h (cacheBlocks_range hs).pool, trivial⟩) hon h (fun _ _ => trivial) he).1
    · cases he
      exact h
  | removeSkipped r t =>
    exact (removeSkipped_rule (fun _ => True) (fun _ => True) hQ.steady.free
      (fun _ _ _ _ _ _ => trivial) h (fun _ _ => trivial) he).1
  | free r =>
    cases he
    exact freeAll_frees hQ.steady.free r h
  | evict ids =>
    simp only [Ownership.step, KVCacheManager.evictBlocks, seq_ok_iff] at he
    obtain ⟨q, hq, he⟩ := he
    cases he
    exact hQ.evict h hq
  | resetPrefixCache =>
    cases he
    exact hQ.reset h
  | newStep =>
    cases he
    exact h

end closed

theorem closed_nullKept : Closed NullKept :=
  ⟨steady_nullKept, fun _ h he => h.cacheFullBlocks he, fun h he => h.evictBlocks he,
    fun h => h.resetPrefixCache⟩

theorem closed_of_evict (hsame : ∀ p p', SameCache p p' → Q p → Q p')
    (hevict : ∀ p b, Q p → Q (p.maybeEvictCachedBlock b))
    (hcache : ∀ {p p' : BlockPool} {hashes : List BlockHash} {tokens : List Int}
      {blocks : List Nat} {numCached numFull blockSize groupId : Nat}, p.enableCaching = true →
      Q p → p.cacheFullBlocks hashes tokens blocks numCached numFull blockSize groupId = .ok p' →
      Q p') (hreset : ∀ p, Q p → Q p.resetPrefixCache.1) : Closed Q := by
  refine ⟨steady_of_evict hsame hevict, hcache, fun h he => ?_, hreset _⟩
  refine foldlM_induct Q (fun b _ s s' hs hb => ?_) h he
  split_ifs at hb
  cases hb
  exact hevict s b hs

theorem closed_hashSize (size : Nat) : Closed (fun p => p.hashBlockSize = size) := by
  refine closed_of_evict (fun _ _ hs h => hs.hashSize.trans h)
    (fun p b h => (maybeEvict_sameConfig p b).hashSize.trans h)
    (fun _ h he => (cacheFullBlocks_config he).2.1.trans h) (fun p h => ?_)
  unfold BlockPool.resetPrefixCache
  split_ifs <;> exact h

theorem closed_enabled (events : Bool) : Closed (fun p => p.enableKvCacheEvents = events) := by
  refine closed_of_evict (fun _ _ hs h => hs.enabled.trans h)
    (fun p b h => (maybeEvict_enabled p b).trans h)
    (fun _ h he => (cacheFullBlocks_config he).2.2.trans h) (fun p h => ?_)
  unfold BlockPool.resetPrefixCache
  split_ifs <;> exact h

theorem closed_hashAgree : Closed HashAgree :=
  closed_of_evict (fun _ _ hs h => h.of_same hs) (fun _ b h => h.maybeEvict b)
    (fun hon h he => h.cacheFullBlocks hon he) (fun _ h => h.resetPrefixCache)

end Ownership
end TailBlend
