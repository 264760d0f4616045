import TailBlend.NullBlocks

/-! The events that the block pool publishes, against the map of its cached blocks. A property of
the pool is steady when taking and giving back blocks does not break it. -/
namespace TailBlend
open List

namespace BlockHash

def tokens : BlockHash → List Int
  | noneHash => []
  | block _ tokens _ => tokens

end BlockHash

namespace KVCacheEvent

def mentions (key : BlockKey) : KVCacheEvent → Option Bool
  | .blockStored hashes _ _ _ groupIdx =>
    if key.2 = groupIdx ∧ key.1 ∈ hashes then some true else none
  | .blockRemoved hashes groupIdx =>
    if key.2 = groupIdx ∧ key.1 ∈ hashes then some false else none
  | .allBlocksCleared => some false

def lastMention (queue : List KVCacheEvent) (key : BlockKey) : Option Bool :=
  queue.reverse.findSome? (mentions key)

def TokensMatch : KVCacheEvent → Prop
  | .blockStored hashes _ tokenIds _ _ => tokenIds = hashes.flatMap (·.flatMap BlockHash.tokens)
  | _ => True

instance : DecidablePred TokensMatch
  | .blockStored _ _ _ _ _ => inferInstanceAs (Decidable (_ = _))
  | .blockRemoved _ _ | .allBlocksCleared => inferInstanceAs (Decidable True)

theorem lastMention_append (queue : List KVCacheEvent) (event : KVCacheEvent) (key : BlockKey) :
    lastMention (queue ++ [event]) key = (event.mentions key).or (lastMention queue key) := by
  simp only [lastMention, reverse_append, reverse_singleton, singleton_append, findSome?_cons]
  cases event.mentions key <;> rfl

end KVCacheEvent

def HashesTokens (hashBlockSize : Nat) (blockHashes : List BlockHash) (allTokenIds : List Int) :
    Prop :=
  ∀ (i : Nat) (h : BlockHash), blockHashes[i]? = some h →
    h.tokens = (allTokenIds.drop (i * hashBlockSize)).take hashBlockSize

theorem flatMap_chunks {β : Type} {f : β → List Int} {l : List β} (all : List Int) (size k : Nat)
    (h : ∀ (i : Nat) (x : β), l[i]? = some x → f x = (all.drop ((k + i) * size)).take size) :
    l.flatMap f = (all.drop (k * size)).take (l.length * size) := by
  induction l generalizing k with
  | nil => simp
  | cons x xs ih =>
    have hrest : xs.flatMap f = (all.drop ((k + 1) * size)).take (xs.length * size) := by
      refine ih (k + 1) (fun i y hy => ?_)
      rw [h (i + 1) y (by simpa using hy)]
      congr 2
      ring
    have hhead := h 0 x rfl
    rw [flatMap_cons, hrest, hhead, length_cons, Nat.add_zero,
      show (xs.length + 1) * size = size + xs.length * size by ring, take_add, drop_drop,
      Nat.succ_mul]

variable {blockHashes : List BlockHash}

theorem HashesTokens.hashesAt {hashBlockSize blockSize : Nat}
    {all : List Int} (h : HashesTokens hashBlockSize blockHashes all)
    (hdvd : hashBlockSize ∣ blockSize) {i : Nat} {x : List BlockHash}
    (hx : (TailBlend.hashesAt blockHashes hashBlockSize blockSize)[i]? = some x) :
    x.flatMap BlockHash.tokens = (all.drop (i * blockSize)).take blockSize := by
  obtain ⟨hi, hget⟩ := List.getElem?_eq_some_iff.mp hx
  rw [getElem_hashesAt] at hget
  rw [length_hashesAt] at hi
  set scale := blockSize / hashBlockSize with hscale
  have hsize : scale * hashBlockSize = blockSize := Nat.div_mul_cancel hdvd
  have hlen : x.length = scale := by
    have := Nat.div_mul_le_self blockHashes.length scale
    have hle : (i + 1) * scale ≤ blockHashes.length := (Nat.mul_le_mul_right scale hi).trans this
    rw [Nat.succ_mul] at hle
    rw [← hget, length_take, length_drop]
    omega
  have hchunk (j : Nat) (y : BlockHash) (hy : x[j]? = some y) :
      y.tokens = (all.drop ((i * scale + j) * hashBlockSize)).take hashBlockSize := by
    rw [← hget, getElem?_take] at hy
    split_ifs at hy
    rw [getElem?_drop] at hy
    exact h _ y hy
  rw [flatMap_chunks all hashBlockSize (i * scale) hchunk, hlen, Nat.mul_assoc, hsize]

namespace BlockPool
open KVCacheEvent
variable {p p' : BlockPool}

structure SameCache (p p' : BlockPool) : Prop where
  caching : p'.enableCaching = p.enableCaching
  hashSize : p'.hashBlockSize = p.hashBlockSize
  enabled : p'.enableKvCacheEvents = p.enableKvCacheEvents
  hash : p'.blockHash = p.blockHash
  map : p'.cachedBlockHashToBlock = p.cachedBlockHashToBlock
  queue : p'.kvEventQueue = p.kvEventQueue

theorem SameCache.refl (p : BlockPool) : SameCache p p := ⟨rfl, rfl, rfl, rfl, rfl, rfl⟩

theorem SameCache.trans {q : BlockPool} (h : SameCache p q) (h' : SameCache q p') :
    SameCache p p' :=
  ⟨h'.caching.trans h.caching, h'.hashSize.trans h.hashSize, h'.enabled.trans h.enabled,
    h'.hash.trans h.hash, h'.map.trans h.map, h'.queue.trans h.queue⟩

theorem freeBlocks_sameCache (p : BlockPool) (blocks : List Nat) :
    SameCache p (p.freeBlocks blocks) := ⟨rfl, rfl, rfl, rfl, rfl, rfl⟩

structure Steady (Q : BlockPool → Prop) : Prop where
  touch : ∀ {p p' : BlockPool} {blocks : List Nat}, Q p → p.touch blocks = .ok p' → Q p'
  take : ∀ {p p' : BlockPool} {n : Int} {ret : List Nat}, Q p →
    p.getNewBlocks n = .ok (p', ret) → Q p'
  free : ∀ {p : BlockPool} (blocks : List Nat), Q p → Q (p.freeBlocks blocks)

variable {Q : BlockPool → Prop} {b : Nat} {blocks : List Nat} {hashes : List (List BlockHash)}

theorem Steady.and {R : BlockPool → Prop} (hQ : Steady Q) (hR : Steady R) :
    Steady (fun p => Q p ∧ R p) :=
  ⟨fun h he => ⟨hQ.touch h.1 he, hR.touch h.2 he⟩, fun h he => ⟨hQ.take h.1 he, hR.take h.2 he⟩,
    fun blocks h => ⟨hQ.free blocks h.1, hR.free blocks h.2⟩⟩

theorem steady_nullKept : Steady NullKept :=
  ⟨fun h he => h.touch he, fun h he => (h.getNewBlocks he).1, fun blocks h => h.freeBlocks blocks⟩

theorem touchOne_sameCache (he : p.touchOne b = .ok p') : SameCache p p' := by
  unfold touchOne at he
  split_ifs at he <;> cases he <;> exact ⟨rfl, rfl, rfl, rfl, rfl, rfl⟩

theorem handOut_sameCache (he : p.handOut b = .ok p') :
    SameCache (if p.enableCaching then p.maybeEvictCachedBlock b else p) p' := by
  unfold handOut at he
  simp only at he
  generalize (if p.enableCaching then p.maybeEvictCachedBlock b else p) = q at he ⊢
  split_ifs at he
  cases he
  exact ⟨rfl, rfl, rfl, rfl, rfl, rfl⟩

theorem getNewBlocks_handOut {n : Int} {ret : List Nat} (he : p.getNewBlocks n = .ok (p', ret)) :
    ∃ q, SameCache p q ∧ ret.foldlM handOut q = .ok p' := by
  unfold getNewBlocks at he
  split_ifs at he
  rw [seq_ok_iff] at he
  obtain ⟨⟨q, taken⟩, hpop, he⟩ := he
  simp only [seq_ok_iff] at he
  obtain ⟨q', hfold, he⟩ := he
  cases he
  refine ⟨q, ?_, hfold⟩
  unfold popleftN at hpop
  split_ifs at hpop <;> cases hpop <;> exact ⟨rfl, rfl, rfl, rfl, rfl, rfl⟩

theorem steady_of_evict (hsame : ∀ p p', SameCache p p' → Q p → Q p')
    (hevict : ∀ p b, Q p → Q (p.maybeEvictCachedBlock b)) : Steady Q := by
  refine ⟨fun h he => ?_, fun h he => ?_, fun {p} blocks h => ?_⟩
  · exact foldlM_induct Q (fun b _ s s' hs hb => hsame s s' (touchOne_sameCache hb) hs) h he
  · obtain ⟨q, hq, hfold⟩ := getNewBlocks_handOut he
    refine foldlM_induct Q (fun b _ s s' hs hb => ?_) (hsame _ q hq h) hfold
    refine hsame _ s' (handOut_sameCache hb) ?_
    split_ifs
    · exact hevict s b hs
    · exact hs
  · exact hsame p _ (freeBlocks_sameCache p blocks) h

theorem maybeEvict_queue (p : BlockPool) (b : Nat) :
    (p.maybeEvictCachedBlock b).kvEventQueue = p.kvEventQueue ∨
      ∃ key : BlockKey, (p.maybeEvictCachedBlock b).kvEventQueue =
        p.published (.blockRemoved [key.1] key.2) := by
  unfold maybeEvictCachedBlock
  split
  · exact .inl rfl
  · split_ifs
    · exact .inr ⟨_, rfl⟩
    · exact .inl rfl

theorem maybeEvict_enabled (p : BlockPool) (b : Nat) :
    (p.maybeEvictCachedBlock b).enableKvCacheEvents = p.enableKvCacheEvents := by
  unfold maybeEvictCachedBlock
  split <;> [rfl; (split_ifs <;> rfl)]

/-! The hashes and the map. -/

theorem hashAgree_init (n : Nat) (caching : Bool) (size : Nat) (events : Bool) :
    (init n caching size events).HashAgree :=
  ⟨by simp [init], by simp [init], by simp [init]⟩

section
variable (h : p.HashAgree)
include h

theorem HashAgree.of_same (hs : SameCache p p') : p'.HashAgree := by
  refine ⟨?_, ?_, ?_⟩
  · rw [hs.map, hs.hash]
    exact h.cached_iff
  · rw [hs.map]
    exact h.cached_nodup
  · rw [hs.caching, hs.hash]
    exact h.off

theorem HashAgree.handOut (he : p.handOut b = .ok p') :
    p'.HashAgree ∧ p'.blockHash = Function.update p.blockHash b none := by
  have hs := handOut_sameCache he
  by_cases hc : p.enableCaching = true
  · rw [if_pos hc] at hs
    exact ⟨(h.maybeEvict b).of_same hs, hs.hash.trans (h.maybeEvict_blockHash b)⟩
  · rw [if_neg hc] at hs
    refine ⟨h.of_same hs, hs.hash.trans ?_⟩
    rw [← h.off (by simpa using hc) b, Function.update_eq_self]

theorem HashAgree.getNewBlocks_none {n : Int} {ret : List Nat}
    (he : p.getNewBlocks n = .ok (p', ret)) : ∀ b ∈ ret, p'.blockHash b = none := by
  have hfold (q : BlockPool) (hq : q.HashAgree) (hrun : ret.foldlM BlockPool.handOut q = .ok p') :
      ∀ b, b ∈ ret ∨ q.blockHash b = none → p'.blockHash b = none := by
    clear he
    induction ret generalizing q with
    | nil =>
      cases hrun
      simp
    | cons x xs ih =>
      rw [foldlM_cons, seq_ok_iff] at hrun
      obtain ⟨q1, hx, hrun⟩ := hrun
      obtain ⟨hq1, hhash⟩ := hq.handOut hx
      intro b hb
      refine ih q1 hq1 hrun b ?_
      rw [hhash]
      by_cases hbx : b = x
      · exact .inr (by simp [hbx])
      · simpa [hbx] using hb
  obtain ⟨q, hs, hrun⟩ := getNewBlocks_handOut he
  exact fun b hb => hfold q (h.of_same hs) hrun b (.inl hb)

theorem HashAgree.resetPrefixCache : p.resetPrefixCache.1.HashAgree := by
  unfold BlockPool.resetPrefixCache
  split_ifs
  · exact h
  · exact ⟨by simp, by simp, by simp⟩

end

/-! The registration of full blocks. -/

def newHashes (blocks : List Nat) (hashes : List (List BlockHash)) : List (List BlockHash) :=
  ((blocks.zip hashes).filter (fun e => e.1 ≠ 0)).map Prod.snd

theorem newHashes_of_nonnull (h0 : 0 ∉ blocks) :
    newHashes blocks hashes = hashes.take blocks.length := by
  have hall : (blocks.zip hashes).filter (fun e => e.1 ≠ 0) = blocks.zip hashes := by
    refine filter_eq_self.mpr (fun e he => ?_)
    have hmem := (of_mem_zip he).1
    have hne : e.1 ≠ 0 := fun hz => h0 (hz ▸ hmem)
    simpa using hne
  rw [newHashes, hall]
  induction blocks generalizing hashes with
  | nil => simp
  | cons b bs ih =>
    cases hashes with
    | nil => simp
    | cons x xs =>
      simp only [zip_cons_cons, map_cons, length_cons, take_succ_cons, cons.injEq, true_and]
      refine ih (fun h => h0 (by simp [h])) ?_
      simp only [filter_eq_self] at hall ⊢
      exact fun e he => hall e (by simp [he])

theorem register_map (p : BlockPool) (key k : BlockKey) (b : Nat) :
    (p.register key b).cachedBlockHashToBlock k ≠ [] ↔
      p.cachedBlockHashToBlock k ≠ [] ∨ k = key := by
  simp only [register]
  by_cases hk : k = key
  · subst hk
    rw [Function.update_self]
    simp only [or_true, iff_true]
    split_ifs with hb
    · exact ne_nil_of_mem hb
    · simp
  · simp [hk]

structure Registered (p p' : BlockPool) (groupId : Nat) (blocks : List Nat)
    (hashes : List (List BlockHash)) : Prop where
  caching : p'.enableCaching = p.enableCaching
  hashSize : p'.hashBlockSize = p.hashBlockSize
  enabled : p'.enableKvCacheEvents = p.enableKvCacheEvents
  queue : p'.kvEventQueue = p.kvEventQueue
  map : ∀ key : BlockKey, p'.cachedBlockHashToBlock key ≠ [] ↔
    p.cachedBlockHashToBlock key ≠ [] ∨ key.2 = groupId ∧ key.1 ∈ newHashes blocks hashes
  hash : p.enableCaching = true → p.HashAgree → p'.HashAgree
  length : 0 ∉ blocks → blocks.length ≤ hashes.length

theorem cacheFullBlocksFrom_registered {groupId : Nat}
    (he : cacheFullBlocksFrom groupId p blocks hashes = .ok p') :
    Registered p p' groupId blocks hashes := by
  induction blocks generalizing p hashes with
  | nil =>
    cases he
    exact ⟨rfl, rfl, rfl, rfl, by simp [newHashes], fun _ h => h, by simp⟩
  | cons b bs ih =>
    unfold cacheFullBlocksFrom at he
    split_ifs at he with hb hs
    · have hr := ih he
      refine ⟨hr.caching, hr.hashSize, hr.enabled, hr.queue, fun key => ?_, hr.hash,
        fun h0 => absurd hb.symm (fun h => h0 (by simp [h]))⟩
      rw [hr.map]
      cases hashes <;> simp [newHashes, hb]
    cases hashes with
    | nil => simp at he
    | cons h hs' =>
      have hr := ih he
      refine ⟨hr.caching, hr.hashSize, hr.enabled, hr.queue, fun key => ?_, fun hc hh => ?_,
        fun h0 => ?_⟩
      · have hnew : newHashes (b :: bs) (h :: hs') = h :: newHashes bs hs' := by
          simp [newHashes, hb]
        rw [hr.map, register_map, hnew, mem_cons, Prod.ext_iff]
        tauto
      · exact hr.hash hc (hh.register _ (by simpa using hs) hc)
      · have := hr.length (fun h => h0 (by simp [h]))
        simpa using this

theorem cacheFullBlocks_registered {tokens : List Int}
    {numCached numFull blockSize groupId : Nat}
    (he : p.cacheFullBlocks blockHashes tokens blocks numCached numFull blockSize groupId = .ok p')
    :
    p' = p ∨ ∃ q, Registered p q groupId ((blocks.take numFull).drop numCached)
        ((hashesAt blockHashes p.hashBlockSize blockSize).drop numCached) ∧
      ((p.enableKvCacheEvents = false ∧ p' = q) ∨
        p.enableKvCacheEvents = true ∧ numFull ≤ blocks.length ∧ p.hashBlockSize ∣ blockSize ∧
        ∃ parent,
        p' = { q with kvEventQueue := q.kvEventQueue ++ [.blockStored
          (newHashes ((blocks.take numFull).drop numCached)
            ((hashesAt blockHashes p.hashBlockSize blockSize).drop numCached)) parent
          ((tokens.take (numFull * blockSize)).drop (numCached * blockSize)) blockSize
          groupId] }) := by
  by_cases hn : numCached < numFull
  · have hdvd : p.hashBlockSize ∣ blockSize := by
      unfold cacheFullBlocks at he
      rw [if_neg (by omega)] at he
      split_ifs at he with h1 h2
      · exact Nat.dvd_of_mod_eq_zero (not_not.mp h2)
      · exact Nat.dvd_of_mod_eq_zero (not_not.mp h2)
    obtain ⟨q, hq, hcase⟩ := cacheFullBlocks_eq he hn
    refine .inr ⟨q, cacheFullBlocksFrom_registered hq, ?_⟩
    rcases hcase with hoff | ⟨hon, event, hevent, rfl⟩
    · exact .inl hoff
    unfold storedEvent at hevent
    by_cases hshort : (hashesAt blockHashes p.hashBlockSize blockSize).length < numCached ∨
        blocks.length < numFull
    · rw [if_pos hshort] at hevent
      cases hevent
    rw [if_neg hshort] at hevent
    cases hevent
    push Not at hshort
    exact .inr ⟨hon, hshort.2, hdvd, _, rfl⟩
  · unfold cacheFullBlocks at he
    rw [if_pos (not_lt.mp hn)] at he
    exact .inl (Except.ok.inj he).symm

section cacheFullBlocks
variable {blockHashes : List BlockHash} {tokens : List Int} {blocks : List Nat}
  {numCached numFull blockSize groupId : Nat}

theorem HashAgree.cacheFullBlocks (h : p.HashAgree) (hc : p.enableCaching = true)
    (he : p.cacheFullBlocks blockHashes tokens blocks numCached numFull blockSize groupId =
      .ok p') : p'.HashAgree := by
  rcases cacheFullBlocks_registered he with rfl | ⟨q, hr, hcase⟩
  · exact h
  have hq := hr.hash hc h
  rcases hcase with ⟨-, rfl⟩ | ⟨-, -, -, parent, rfl⟩
  · exact hq
  · exact ⟨hq.cached_iff, hq.cached_nodup, hq.off⟩

theorem cacheFullBlocks_config
    (he : p.cacheFullBlocks blockHashes tokens blocks numCached numFull blockSize groupId =
      .ok p') : p'.enableCaching = p.enableCaching ∧ p'.hashBlockSize = p.hashBlockSize ∧
      p'.enableKvCacheEvents = p.enableKvCacheEvents := by
  rcases cacheFullBlocks_registered he with rfl | ⟨q, hr, hcase⟩
  · exact ⟨rfl, rfl, rfl⟩
  · rcases hcase with ⟨-, rfl⟩ | ⟨-, -, -, parent, rfl⟩
    · exact ⟨hr.caching, hr.hashSize, hr.enabled⟩
    · exact ⟨hr.caching, hr.hashSize, hr.enabled⟩

end cacheFullBlocks

/-! The events. -/

/-- With events enabled, the last event that mentions a key tells whether the map holds a block
under it. -/
def EventsAgree (p : BlockPool) : Prop :=
  p.enableKvCacheEvents = true → ∀ key : BlockKey,
    lastMention p.kvEventQueue key = some true ↔ p.cachedBlockHashToBlock key ≠ []

def SoleBlocks (p : BlockPool) : Prop := ∀ key, (p.cachedBlockHashToBlock key).length ≤ 1

def StoredTokens (p : BlockPool) : Prop := ∀ event ∈ p.kvEventQueue, event.TokensMatch

theorem eventsAgree_init (n : Nat) (caching : Bool) (size : Nat) (events : Bool) :
    (init n caching size events).EventsAgree := by
  intro _ key
  simp [init, lastMention]

theorem storedTokens_init (n : Nat) (caching : Bool) (size : Nat) (events : Bool) :
    (init n caching size events).StoredTokens := by
  simp [StoredTokens, init]

theorem EventsAgree.of_same (h : p.EventsAgree) (hs : SameCache p p') : p'.EventsAgree := by
  unfold EventsAgree
  rw [hs.enabled, hs.queue, hs.map]
  exact h

theorem SoleBlocks.of_same (h : p.SoleBlocks) (hs : SameCache p p') : p'.SoleBlocks := by
  unfold SoleBlocks
  rw [hs.map]
  exact h

theorem StoredTokens.of_same (h : p.StoredTokens) (hs : SameCache p p') : p'.StoredTokens := by
  unfold StoredTokens
  rw [hs.queue]
  exact h

theorem SoleBlocks.maybeEvict (h : p.SoleBlocks) (b : Nat) :
    (p.maybeEvictCachedBlock b).SoleBlocks := by
  intro key
  unfold maybeEvictCachedBlock
  split
  · exact h key
  rename_i k _
  split_ifs
  · simp only
    by_cases hk : key = k
    · subst hk
      rw [Function.update_self]
      exact (length_erase_le).trans (h key)
    · rw [Function.update_of_ne hk]
      exact h key
  · exact h key

theorem EventsAgree.maybeEvict (h : p.EventsAgree) (hsole : p.SoleBlocks) (b : Nat) :
    (p.maybeEvictCachedBlock b).EventsAgree := by
  intro hon key
  rw [maybeEvict_enabled] at hon
  have hkey := h hon key
  unfold maybeEvictCachedBlock
  split
  · exact hkey
  rename_i k _
  split_ifs with hmem
  · simp only [published, hon, if_true]
    rw [lastMention_append]
    by_cases hk : key = k
    · subst hk
      obtain ⟨x, hx⟩ : ∃ x, p.cachedBlockHashToBlock key = [x] := by
        refine length_eq_one_iff.mp ?_
        have := hsole key
        have := length_pos_of_mem hmem
        omega
      rw [hx, mem_singleton] at hmem
      rw [hx, hmem]
      simp [mentions]
    rw [Function.update_of_ne hk]
    have hnot : ¬(key.2 = k.2 ∧ key.1 ∈ [k.1]) := by
      rintro ⟨h2, h1⟩
      exact hk (Prod.ext (mem_singleton.mp h1) h2)
    rw [mentions, if_neg hnot]
    exact hkey
  · exact hkey

theorem StoredTokens.published (h : p.StoredTokens) {event : KVCacheEvent}
    (he : event.TokensMatch) : ∀ e ∈ p.published event, e.TokensMatch := by
  unfold BlockPool.published
  split_ifs
  · intro e hmem
    rcases mem_append.mp hmem with hmem | hmem
    · exact h e hmem
    · rw [mem_singleton.mp hmem]
      exact he
  · exact h

theorem StoredTokens.maybeEvict (h : p.StoredTokens) (b : Nat) :
    (p.maybeEvictCachedBlock b).StoredTokens := by
  unfold StoredTokens
  rcases maybeEvict_queue p b with hq | ⟨key, hq⟩
  · rw [hq]
    exact h
  · rw [hq]
    exact h.published trivial

/-- While no key has two blocks, the events follow the map through every eviction. -/
theorem steady_events : Steady (fun p => p.SoleBlocks ∧ p.EventsAgree ∧ p.StoredTokens) :=
  steady_of_evict (fun _ _ hs h => ⟨h.1.of_same hs, h.2.1.of_same hs, h.2.2.of_same hs⟩)
    (fun _ b h => ⟨h.1.maybeEvict b, h.2.1.maybeEvict h.1 b, h.2.2.maybeEvict b⟩)

theorem events_evictBlocks {ids : List Nat}
    (h : p.SoleBlocks ∧ p.EventsAgree ∧ p.StoredTokens) (he : p.evictBlocks ids = .ok p') :
    p'.EventsAgree ∧ p'.StoredTokens := by
  refine (foldlM_induct (fun q => q.SoleBlocks ∧ q.EventsAgree ∧ q.StoredTokens)
    (fun b _ s s' hs hb => ?_) h he).2
  split_ifs at hb
  cases hb
  exact ⟨hs.1.maybeEvict b, hs.2.1.maybeEvict hs.1 b, hs.2.2.maybeEvict b⟩

theorem EventsAgree.resetPrefixCache (h : p.EventsAgree) : p.resetPrefixCache.1.EventsAgree := by
  unfold BlockPool.resetPrefixCache
  split_ifs
  · exact h
  intro hon key
  simp only [BlockPool.published, show p.enableKvCacheEvents = true from hon, if_true]
  rw [lastMention_append]
  simp [mentions]

theorem StoredTokens.resetPrefixCache (h : p.StoredTokens) : p.resetPrefixCache.1.StoredTokens := by
  unfold BlockPool.resetPrefixCache
  split_ifs
  · exact h
  · exact h.published trivial

section cacheFullBlocks
variable {blockHashes : List BlockHash} {tokens : List Int} {blocks : List Nat}
  {numCached numFull blockSize groupId : Nat}

theorem EventsAgree.cacheFullBlocks (h : p.EventsAgree)
    (he : p.cacheFullBlocks blockHashes tokens blocks numCached numFull blockSize groupId =
      .ok p') : p'.EventsAgree := by
  rcases cacheFullBlocks_registered he with rfl | ⟨q, hr, hcase⟩
  · exact h
  intro hon key
  rcases hcase with ⟨hoff, rfl⟩ | ⟨hon', -, -, parent, rfl⟩
  · rw [hr.enabled, hoff] at hon
    cases hon
  rw [lastMention_append, hr.queue, hr.map, mentions]
  split_ifs with hkey
  · simp [hkey]
  · rw [Option.none_or, h hon' key]
    tauto

theorem StoredTokens.cacheFullBlocks (h : p.StoredTokens)
    (htokens : HashesTokens p.hashBlockSize blockHashes tokens)
    (h0 : 0 ∉ (blocks.take numFull).drop numCached)
    (he : p.cacheFullBlocks blockHashes tokens blocks numCached numFull blockSize groupId =
      .ok p') : p'.StoredTokens := by
  rcases cacheFullBlocks_registered he with rfl | ⟨q, hr, hcase⟩
  · exact h
  have hq : q.StoredTokens := by
    unfold StoredTokens
    rw [hr.queue]
    exact h
  rcases hcase with ⟨-, rfl⟩ | ⟨-, hlen, hdvd, parent, rfl⟩
  · exact hq
  intro event hmem
  rcases mem_append.mp hmem with hmem | hmem
  · exact hq event hmem
  rw [mem_singleton.mp hmem]
  have hnew := hr.length h0
  have hcount : ((blocks.take numFull).drop numCached).length = numFull - numCached := by
    rw [length_drop, length_take, Nat.min_eq_left hlen]
  rw [TokensMatch, newHashes_of_nonnull h0, hcount, drop_take,
    flatMap_chunks tokens blockSize numCached]
  · rw [length_take, Nat.min_eq_left (by omega), Nat.mul_sub_right_distrib]
  intro i x hx
  rw [getElem?_take] at hx
  split_ifs at hx
  rw [getElem?_drop] at hx
  exact htokens.hashesAt hdvd hx

end cacheFullBlocks

end BlockPool
end TailBlend
