import TailBlend.AdmissionCap
import TailBlend.SlotRuns

/-! The hashes, the map and the published events in every state of a run. -/
namespace TailBlend.Ownership
open BlockPool Manager KVCacheManager Admission Session List
variable {α : Type} [DecidableEq α]

/-! Lists without null blocks in the part that is still to be cached. -/

/-- From index `numCached` on no request lists a null block. In align mode they may stand
anywhere. -/
structure Solid (m : Manager α) : Prop where
  kind : ∀ n, m.spec.kind ≠ .mamba .align n
  nonnull : ∀ (r : α) (i : Nat), numCached m r ≤ i → (m.blocks r)[i]? ≠ some 0

section managers
variable {p p' : BlockPool} {m m' : Manager α} {r : α}

theorem Solid.update (h : Solid m) (hs : m'.spec = m.spec)
    (hother : ∀ a, a ≠ r → m'.blocks a = m.blocks a ∧ numCached m' a = numCached m a)
    (hself : ∀ i : Nat, numCached m' r ≤ i → (m'.blocks r)[i]? ≠ some 0) : Solid m' := by
  refine ⟨fun n => hs ▸ h.kind n, fun a i hi => ?_⟩
  by_cases ha : a = r
  · subst ha
    exact hself i hi
  · obtain ⟨hb, hc⟩ := hother a ha
    rw [hb]
    exact h.nonnull a i (hc ▸ hi)

variable {t : Int}

theorem removeSkipped_trimmed (hkind : ∀ n, m.spec.kind ≠ .mamba .align n)
    (he : m.removeSkippedBlocks p r t = .ok (p', m')) :
    Trimmed m m' r (max 0 (m.spec.getNumSkippedTokens t)) := by
  unfold Manager.removeSkippedBlocks at he
  split at he
  · rename_i mode n hk
    have hmode : mode ≠ .align := fun h => hkind n (h ▸ hk)
    simp only [if_neg hmode] at he
    obtain ⟨-, rfl⟩ := Prod.mk.inj (Except.ok.inj he)
    refine (baseRemove_trimmed p m r _).mono ?_
    simp only [KVCacheSpec.getNumSkippedTokens, hk]
    omega
  · obtain ⟨-, rfl⟩ := Prod.mk.inj (Except.ok.inj he)
    exact (baseRemove_trimmed p m r t).mono (le_max_right _ _)

omit [DecidableEq α] in
theorem lt_numSkippedBlocks {i : Nat}
    (h : ((i : Int) + 1) * m.blockSize ≤ max 0 (m.spec.getNumSkippedTokens t)) :
    i < m.numSkippedBlocks t := by
  have hpos : (0 : Int) < m.blockSize := by exact_mod_cast m.spec.blockSize_pos
  have hmul : 0 < ((i : Int) + 1) * m.blockSize := mul_pos (by omega) hpos
  have hle : (i : Int) + 1 ≤ m.spec.getNumSkippedTokens t / m.blockSize :=
    (Int.le_ediv_iff_mul_le hpos).mpr (by omega)
  unfold numSkippedBlocks
  omega

section
variable (h : Solid m)
include h

theorem Solid.removeSkipped
    (hskip : m.numSkippedBlocks t ≤ numCached m r ∨ m.blocks r = [])
    (he : m.removeSkippedBlocks p r t = .ok (p', m')) : Solid m' := by
  have ht := removeSkipped_trimmed h.kind he
  have hc (a : α) : numCached m' a = numCached m a := by rw [numCached, ht.cached]; rfl
  refine h.update ht.spec (fun a ha => ⟨(ht.other a ha).blocks, hc a⟩) (fun i hi => ?_)
  rw [hc] at hi
  rcases ht.null i with hsame | ⟨-, hle⟩
  · rw [hsame]
    exact h.nonnull r i hi
  rcases hskip with hskip | hnil
  · have := lt_numSkippedBlocks hle
    omega
  · have hlen := ht.length
    rw [hnil] at hlen
    simp [hlen]

theorem Solid.append {l ret : List Nat} (hset : ListSet m m' r (l ++ ret))
    (h0 : 0 ∉ ret)
    (hother : ∀ a, a ≠ r → numCached m' a = numCached m a)
    (hold : ∀ i : Nat, numCached m' r ≤ i → l[i]? ≠ some 0) : Solid m' := by
  refine h.update hset.spec (fun a ha => ⟨by rw [hset.blocks, if_neg ha], hother a ha⟩)
    (fun i hi => ?_)
  rw [hset.blocks, if_pos rfl]
  rcases Nat.lt_or_ge i l.length with hlt | hge
  · rw [getElem?_append_left hlt]
    exact hold i hi
  · rw [getElem?_append_right hge]
    exact fun hget => h0 (mem_of_getElem? hget)

theorem Solid.allocateComputed (hp : p.NullKept) {hits : List Nat} {loc ext : Int}
    (he : m.allocateNewComputedBlocks p r hits loc ext = .ok (p', m')) : Solid m' := by
  have hadd (he : m.addComputedBlocks p r hits loc ext = .ok (p', m')) : Solid m' := by
    obtain ⟨ret, hset, h0, -⟩ := addComputed_nullKept hp he
    have hc (a : α) : numCached m' a =
        if a = r then (m.computedList hits (loc + ext)).length else numCached m a := by
      obtain ⟨-, p1, -, he⟩ := addComputed_inv he
      rcases he with ⟨ret, -, -, rfl⟩ | ⟨-, -, rfl⟩
      · simp [numCached, withComputed, setBlocks, Dict.getD_set]
      · simp [numCached, withComputed, Dict.getD_set]
    refine h.append hset h0 (fun a ha => by rw [hc, if_neg ha]) (fun i hi => ?_)
    rw [hc, if_pos rfl] at hi
    rw [getElem?_eq_none hi]
    simp
  unfold Manager.allocateNewComputedBlocks at he
  split at he
  · split_ifs at he
    cases he
    exact h
  split_ifs at he
  · cases he
    exact h
  · exact hadd he

theorem Solid.allocateNewBlocks (hp : p.NullKept) {tm : Int} {xs : List Nat}
    (he : m.allocateNewBlocks p r t tm = .ok (p', m', xs)) : Solid m' := by
  have hbase {t : Int} (he : m.baseAllocateNewBlocks p r t = .ok (p', m', xs)) : Solid m' := by
    obtain ⟨ret, hset, h0, -⟩ := baseAllocate_nullKept hp he
    have hc (a : α) : numCached m' a = numCached m a := by
      unfold baseAllocateNewBlocks at he
      simp only at he
      split_ifs at he
      · cases he
        rfl
      rw [seq_ok_iff] at he
      obtain ⟨⟨q, taken⟩, -, he⟩ := he
      cases he
      simp [numCached, setBlocks]
    exact h.append hset h0 (fun a _ => hc a) (fun i hi => h.nonnull r i (hc r ▸ hi))
  unfold Manager.allocateNewBlocks at he
  split at he
  · rename_i mode n hk
    have hmode : mode ≠ .align := fun h' => h.kind n (h' ▸ hk)
    rw [if_pos hmode] at he
    exact hbase he
  · exact hbase he

theorem Solid.cached {req : KVRequest α} {n : Nat}
    (hr : CachedRange p p' m m' req n) : Solid m' := by
  refine h.update hr.spec (r := req.requestId) (fun a ha => ⟨hr.blocks a, ?_⟩) (fun i hi => ?_)
  · rw [hr.cached, if_neg ha]
  · rw [hr.blocks]
    rw [hr.cached, if_pos rfl] at hi
    exact h.nonnull _ i (le_trans (le_max_left _ _) hi)

theorem Solid.free (p : BlockPool) (r : α) : Solid (m.free p r).2 := by
  have hs : (m.free p r).2.spec = m.spec := by
    simp only [Manager.free]
    split <;> rfl
  refine h.update hs (r := r) (fun a ha => ?_) (fun i _ => ?_)
  · have hsame := free_sameFor p m ha
    exact ⟨hsame.blocks, hsame.numCached⟩
  · simp [Manager.blocks, Manager.free]

end

end managers

/-! One operation. -/

structure EventInv (hashSize : Nat) (kv : KVCacheManager α) : Prop where
  hashSize : kv.pool.hashBlockSize = hashSize
  null : kv.pool.NullKept
  events : kv.pool.EventsAgree
  stored : kv.pool.StoredTokens
  solid : ∀ m ∈ kv.managers, Solid m

def PoolEvents (hashSize : Nat) (p : BlockPool) : Prop :=
  p.hashBlockSize = hashSize ∧ p.NullKept ∧ p.EventsAgree ∧ p.StoredTokens

section kv
variable {hashSize : Nat} {kv kv' : KVCacheManager α} {req : KVRequest α}

theorem eventInv_iff : EventInv hashSize kv ↔
    PoolEvents hashSize kv.pool ∧ ∀ m ∈ kv.managers, Solid m :=
  ⟨fun h => ⟨⟨h.hashSize, h.null, h.events, h.stored⟩, h.solid⟩,
    fun h => ⟨h.1.1, h.1.2.1, h.1.2.2.1, h.1.2.2.2, h.2⟩⟩

theorem PoolEvents.cacheBlocks {p p' : BlockPool} {m m' : Manager α} {t : Int}
    (htokens : HashesTokens hashSize req.blockHashes req.allTokenIds) (h : PoolEvents hashSize p)
    (hm : Solid m) (he : m.cacheBlocks p req t = .ok (p', m')) :
    PoolEvents hashSize p' ∧ Solid m' := by
  have hr := cacheBlocks_range he
  refine ⟨⟨?_, h.2.1.cacheFullBlocks hr.pool, h.2.2.1.cacheFullBlocks hr.pool, ?_⟩, hm.cached hr⟩
  · exact (cacheFullBlocks_config hr.pool).2.1.trans h.1
  refine h.2.2.2.cacheFullBlocks (h.1 ▸ htokens) (fun hmem => ?_) hr.pool
  obtain ⟨i, hi⟩ := mem_iff_getElem?.mp hmem
  rw [getElem?_drop, getElem?_take] at hi
  split_ifs at hi
  exact hm.nonnull req.requestId _ (Nat.le_add_right _ _) hi

theorem EventInv.allocateSlots (h : EventInv hashSize kv) {a : SlotArgs}
    (hsole : kv.pool.SoleBlocks)
    (htokens : HashesTokens hashSize req.blockHashes req.allTokenIds)
    (hskip : ∀ m ∈ kv.managers, m.numSkippedBlocks (kv.totalComputedTokens req a) ≤
      numCached m req.requestId ∨ m.blocks req.requestId = [])
    {res : Option (List (List Nat))} (he : kv.allocateSlots req a = .ok (kv', res)) :
    EventInv hashSize kv' := by
  have hQ := ((closed_hashSize hashSize).steady.and steady_nullKept).and steady_events
  refine eventInv_iff.mpr (allocateSlots_rule (R := PoolEvents hashSize) Solid
    (fun m => Solid m ∧ (m.numSkippedBlocks (kv.totalComputedTokens req a) ≤
      numCached m req.requestId ∨ m.blocks req.requestId = [])) hQ ?_ ?_ ?_ ?_ ?_ ?_
    ⟨⟨h.hashSize, h.null⟩, hsole, h.events, h.stored⟩ (fun m hm => ⟨h.solid m hm, hskip m hm⟩) he)
  · exact fun p hp => ⟨hp.1.1, hp.1.2, hp.2.2⟩
  · exact fun m hm => hm.1
  · exact fun p m p' m' hm hs => hm.1.removeSkipped hm.2 hs
  · exact fun p m p' m' hits hp hm hs => hm.allocateComputed hp.1.2 hs
  · exact fun p m p' m' t tm xs hp hm hs => hm.allocateNewBlocks hp.1.2 hs
  · exact fun p m p' m' t _ hp hm hs => hp.cacheBlocks htokens hm hs

theorem freeAll_solid (r : α) {p : BlockPool} {ms : List (Manager α)} (h : ∀ m ∈ ms, Solid m) :
    ∀ m ∈ (freeAll r p ms).2, Solid m := by
  induction ms generalizing p with
  | nil => simp [freeAll]
  | cons m ms ih =>
    intro a ha
    simp only [freeAll, mem_cons] at ha
    rcases ha with rfl | ha
    · exact (h m (by simp)).free p r
    · exact ih (fun x hx => h x (by simp [hx])) a ha

end kv

/-- The condition for the events to follow the map. Where blocks may be evicted no two of them are
cached under one key; a request is admitted without blocks and trimmed only where its blocks have
been cached; the hashes of a request are those of its tokens. -/
def EventStep (kv : KVCacheManager α) : Op α → Prop
  | .newRequest req _ _ _ _ _ _ => kv.pool.SoleBlocks ∧ NoBlocks kv req.1.requestId ∧
      HashesTokens kv.pool.hashBlockSize req.1.blockHashes req.1.allTokenIds
  | .allocate req _ _ _ _ _ => kv.pool.SoleBlocks ∧
      (∀ m ∈ kv.managers, m.numSkippedBlocks (min req.1.numComputedTokens kv.maxModelLen) ≤
        numCached m req.1.requestId) ∧
      HashesTokens kv.pool.hashBlockSize req.1.blockHashes req.1.allTokenIds
  | .cacheBlocks req _ => HashesTokens kv.pool.hashBlockSize req.blockHashes req.allTokenIds
  | .removeSkipped r t => ∀ m ∈ kv.managers, m.numSkippedBlocks t ≤ numCached m r
  | .evict _ => kv.pool.SoleBlocks
  | _ => True

theorem EventInv.step {hashSize : Nat} {kv kv' : KVCacheManager α} (h : EventInv hashSize kv)
    {op : Op α} (hop : EventStep kv op) (he : Ownership.step kv op = .ok kv') :
    EventInv hashSize kv' := by
  have hsize := (closed_hashSize hashSize).step h.hashSize he
  have hnull := closed_nullKept.step h.null he
  cases op with
  | newRequest req n k ext enc delay fit =>
    simp only [Ownership.step, seq_ok_iff] at he
    obtain ⟨⟨hits, cached⟩, -, ⟨kv1, res⟩, hslots, he⟩ := he
    cases he
    obtain ⟨hsole, hno, htokens⟩ := hop
    exact h.allocateSlots hsole (h.hashSize ▸ htokens) (fun m hm => .inr (hno m hm)) hslots
  | allocate req n k enc delay fit =>
    simp only [Ownership.step, seq_ok_iff] at he
    obtain ⟨⟨kv1, res⟩, hslots, he⟩ := he
    cases he
    obtain ⟨hsole, hskip, htokens⟩ := hop
    refine h.allocateSlots hsole (h.hashSize ▸ htokens) (fun m hm => .inl ?_) hslots
    have htotal : kv.totalComputedTokens req.1 (allocateArgs n k enc delay fit) =
        min req.1.numComputedTokens kv.maxModelLen := by
      simp [totalComputedTokens, numLocalComputedTokens, allocateArgs]
    rw [htotal]
    exact hskip m hm
  | cacheBlocks req t =>
    simp only [Ownership.step, KVCacheManager.cacheBlocks] at he
    split_ifs at he with hon
    · obtain ⟨hpool, hsolid⟩ := eventInv_iff.mp h
      have htokens : HashesTokens hashSize req.blockHashes req.allTokenIds := h.hashSize ▸ hop
      exact eventInv_iff.mpr (cacheBlocks_rule Solid (fun p m p' m' _ hp hm hs =>
        hp.cacheBlocks htokens hm hs) hon hpool hsolid he)
    · cases he
      exact h
  | removeSkipped r t =>
    obtain ⟨hsame, hsolid, -⟩ := removeSkipped_rule (Q := SameCache kv.pool)
      (fun m => Solid m ∧ m.numSkippedBlocks t ≤ numCached m r) Solid
      (fun bs hq => hq.trans (freeBlocks_sameCache _ bs))
      (fun p m p' m' hm hs => hm.1.removeSkipped (.inl hm.2) hs)
      (SameCache.refl kv.pool) (fun m hm => ⟨h.solid m hm, hop m hm⟩) he
    exact ⟨hsize, hnull, h.events.of_same hsame, h.stored.of_same hsame, hsolid⟩
  | free r =>
    cases he
    have hsame : SameCache kv.pool (freeAll r kv.pool kv.managers).1 :=
      freeAll_frees (fun bs hq => hq.trans (freeBlocks_sameCache _ bs)) r (SameCache.refl kv.pool)
    exact ⟨hsize, hnull, h.events.of_same hsame, h.stored.of_same hsame, freeAll_solid r h.solid⟩
  | evict ids =>
    simp only [Ownership.step, KVCacheManager.evictBlocks, seq_ok_iff] at he
    obtain ⟨q, hq, he⟩ := he
    cases he
    have hsole : kv.pool.SoleBlocks := hop
    obtain ⟨hevents, hstored⟩ := events_evictBlocks ⟨hsole, h.events, h.stored⟩ hq
    exact ⟨hsize, hnull, hevents, hstored, h.solid⟩
  | resetPrefixCache =>
    cases he
    exact ⟨hsize, hnull, h.events.resetPrefixCache, h.stored.resetPrefixCache, h.solid⟩
  | newStep =>
    cases he
    refine ⟨hsize, hnull, h.events, h.stored, fun m hm => ?_⟩
    obtain ⟨m0, hm0, rfl⟩ := mem_map.mp hm
    exact ⟨(h.solid m0 hm0).kind, (h.solid m0 hm0).nonnull⟩

/-! Runs. -/

variable {s : Session α}

theorem Session.step_kv {s' : Session α} {op : Op α} (he : s.step op = .ok s') :
    Ownership.step s.kv op = .ok s'.kv := by
  have hslots {req : KVRequest α} {a : SlotArgs} (he : s.allocateSlots req a = .ok s') :
      ∃ res, s.kv.allocateSlots req a = .ok (s'.kv, res) := by
    rw [allocateSlots, seq_ok_iff] at he
    obtain ⟨⟨kv, res⟩, hrun, he⟩ := he
    cases he
    exact ⟨res, hrun⟩
  cases op with
  | newRequest req n k ext enc delay fit =>
    simp only [step, seq_ok_iff] at he
    obtain ⟨⟨hits, cached⟩, hget, he⟩ := he
    obtain ⟨res, hrun⟩ := hslots he
    simp [Ownership.step, hget, hrun, bind, Except.bind, pure, Except.pure]
  | allocate req n k enc delay fit =>
    obtain ⟨res, hrun⟩ := hslots he
    simp [Ownership.step, hrun, bind, Except.bind, pure, Except.pure]
  | free r =>
    cases he
    rfl
  | _ =>
    simp only [step, seq_ok_iff] at he
    obtain ⟨kv, hrun, he⟩ := he
    cases he
    exact hrun

theorem Session.run_keeps {I : KVCacheManager α → Prop} {P : KVCacheManager α → Op α → Prop}
    (hstep : ∀ kv op kv', I kv → P kv op → Ownership.step kv op = .ok kv' → I kv') {s' : Session α}
    {ops : List (Op α)} (h : I s.kv) (hP : Trace.Meets Session.step (fun s op => P s.kv op) s ops)
    (he : s.run ops = .ok s') : I s'.kv :=
  Trace.run_induct (I := fun s => I s.kv)
    (fun _ op _ h hop hs => hstep _ op _ h hop (step_kv hs)) h hP he

/-- A block has a hash iff the map holds it under that hash, and new blocks have none. -/
structure HashesDescribed (p : BlockPool) : Prop where
  iff : ∀ b key, p.blockHash b = some key ↔ b ∈ p.cachedBlockHashToBlock key
  new : ∀ n p' ret, p.getNewBlocks n = .ok (p', ret) → ∀ b ∈ ret, p'.blockHash b = none

def CachingReturns (kv : KVCacheManager α) : Op α → Prop
  | .newRequest req n k ext enc delay fit =>
    ∀ hits cached, kv.getComputedBlocks req.1 = .ok (hits, cached) →
      ∃ res, kv.allocateSlots req.1 (admitArgs hits cached n k ext enc delay fit) = .ok res
  | .allocate req n k enc delay fit =>
    ∃ res, kv.allocateSlots req.1 (allocateArgs n k enc delay fit) = .ok res
  | .cacheBlocks req t => ∃ kv', kv.cacheBlocks req t = .ok kv'
  | _ => True

structure Unhashed (s : Session α) : Prop where
  none : ∀ m ∈ s.kv.managers, ∀ (r : α) (i b : Nat), numCached m r ≤ i →
    (m.blocks r)[i]? = some b → b ≠ 0 → s.kv.pool.blockHash b = none
  returns : ∀ op, Permitted s op → Predictable s.kv op → CachingReturns s.kv op

structure EventsDescribe (p : BlockPool) : Prop where
  last : ∀ key : BlockKey, KVCacheEvent.lastMention p.kvEventQueue key = some true ↔
    p.cachedBlockHashToBlock key ≠ []
  tokens : ∀ event ∈ p.kvEventQueue, event.TokensMatch

/-- No group is in align mode and every step meets the condition of the events. -/
def EventRun (c : KVConfig) (ops : List (Op α)) : Prop :=
  (∀ g ∈ c.groups, ∀ n, g.spec.kind ≠ .mamba .align n) ∧
    Trace.Meets Session.step (fun s op => EventStep s.kv op) (Session.init c) ops

theorem SlotInv.unhashed (h : SlotInv s.kv s.granted) : Unhashed s := by
  refine ⟨fun m hm r i b hi hget hb => (h.priv m hm r i b hi hget hb).1, fun op hp hpre => ?_⟩
  cases op with
  | newRequest req n k ext enc delay fit =>
    intro hits cached hget
    obtain ⟨kv', res, hrun, -⟩ := (newRequest_ok h hp hpre hget).2
    exact ⟨_, hrun⟩
  | allocate req n k enc delay fit =>
    obtain ⟨g, hg, -⟩ := RunningCall.granted hp
    obtain ⟨kv', res, hrun, -⟩ := (running_ok h hp hg hpre).2
    exact ⟨_, hrun⟩
  | cacheBlocks req t =>
    have hcall : CacheCall s req t := hp
    obtain ⟨g, hg, hle⟩ := hcall.granted
    unfold CachingReturns KVCacheManager.cacheBlocks
    split_ifs with hc
    · obtain ⟨kv', hrun, -⟩ := h.cache hc hg (hcall.hashes hc) hcall.nonneg hcall.final hle
      exact ⟨kv', hrun⟩
    · exact ⟨s.kv, rfl⟩
  | _ => trivial

theorem eventInv_init (c : KVConfig) (hkind : ∀ g ∈ c.groups, ∀ n, g.spec.kind ≠ .mamba .align n) :
    EventInv c.hashBlockSize (c.init : KVCacheManager α) := by
  refine ⟨rfl, nullKept_init _ _ _ _, eventsAgree_init _ _ _ _, storedTokens_init _ _ _ _,
    fun m hm => ?_⟩
  simp only [KVConfig.init, KVCacheManager.init, mem_map] at hm
  obtain ⟨⟨g, i⟩, hg, rfl⟩ := hm
  exact ⟨hkind g (fst_mem_of_mem_zipIdx hg), by simp [Manager.blocks, Manager.init]⟩

/-- In every run the hashes and the map describe each other. In a run of permitted and predictable
operations no block to be cached has a hash, and as long as no duplicate is evicted and no null
block stands among the blocks to be cached the events describe the map. -/
theorem Session.run_described (c : KVConfig) (ops : List (Op α)) (s : Session α)
    (hrun : (Session.init c).run ops = .ok s) :
    HashesDescribed s.kv.pool ∧
      (c.NoCachedCross → GoodRun (Session.init c) ops → Unhashed s) ∧
      (c.enableKvCacheEvents = true → EventRun c ops → EventsDescribe s.kv.pool) := by
  have hhash : s.kv.pool.HashAgree := run_keeps (P := fun _ _ => True)
    (I := fun kv => kv.pool.HashAgree) (fun kv op kv' h _ he => closed_hashAgree.step h he)
    (hashAgree_init _ _ _ _) (Trace.meets_of_forall (fun _ _ => trivial) _) hrun
  refine ⟨⟨fun b key => (hhash.cached_iff b key).symm, fun n p' ret => hhash.getNewBlocks_none⟩,
    fun hc hgood => (run_inv (init_inv c hc) hgood hrun).unhashed,
    fun hon hevents => ?_⟩
  have hinv := run_keeps (fun kv op kv' h hop he => h.step hop he)
    (eventInv_init c hevents.1) hevents.2 hrun
  have hen : s.kv.pool.enableKvCacheEvents = true := run_keeps (P := fun _ _ => True)
    (fun kv op kv' h _ he => (closed_enabled true).step h he) hon
    (Trace.meets_of_forall (fun _ _ => trivial) _) hrun
  exact ⟨hinv.events hen, hinv.stored⟩

/-! One group with one token per block and events. -/

def eventConfig (kind : SpecKind) (h : kind.Valid) : KVConfig where
  groups := [⟨sampleSpec kind 0 h, false⟩]
  numBlocks := 10
  hashBlockSize := 1
  enableCaching := true
  useEagle := false
  enableKvCacheEvents := true
  maxModelLen := 100
  maxNumBatchedTokens := 100
  numBlocks_pos := sampleConfig.numBlocks_pos
  hashBlockSize_pos := Nat.one_pos
  divides := by simp [sampleSpec]
  maxModelLen_pos := sampleConfig.maxModelLen_pos

def attentionEvents : KVConfig := eventConfig (.fullAttention .full) trivial

def alignEvents : KVConfig := eventConfig (.mamba .align 0) trivial

def admission (r n : Nat) : Op Nat := .newRequest (sampleRequest r n) n 0 0 0 false false

/-- Two tokens are cached, the request ends and the block of the first token is evicted. -/
def evictedOps : List (Op Nat) := [admission 0 2, .free 0, .evict [1]]

theorem uniform_getElem? (tokens : List Int) {n i : Nat} {parent h : BlockHash}
    (hget : (BlockHash.uniform tokens n parent)[i]? = some h) : i < n ∧ h.tokens = tokens := by
  induction n generalizing i parent with
  | zero => simp [BlockHash.uniform] at hget
  | succ n ih =>
    cases i with
    | zero =>
      simp only [BlockHash.uniform, getElem?_cons_zero, Option.some.injEq] at hget
      exact ⟨by omega, by rw [← hget]; rfl⟩
    | succ i =>
      obtain ⟨hi, ht⟩ := ih hget
      exact ⟨by omega, ht⟩

theorem sampleRequest_tokens (r n : Nat) :
    HashesTokens 1 (sampleRequest r n).1.blockHashes (sampleRequest r n).1.allTokenIds := by
  intro i h hget
  obtain ⟨hi, ht⟩ := uniform_getElem? [7] hget
  rw [ht]
  simp only [sampleRequest, drop_replicate, take_replicate]
  rw [Nat.min_eq_left (by omega)]
  rfl

theorem soleBlocks_of_injective {p : BlockPool} (h : p.HashOK)
    (hinj : ∀ b < p.numGpuBlocks, ∀ b' < p.numGpuBlocks, p.blockHash b = p.blockHash b' →
      b = b' ∨ p.blockHash b = none) : p.SoleBlocks := by
  intro key
  by_contra hlen
  obtain ⟨b, b', rest, hl⟩ : ∃ b b' rest, p.cachedBlockHashToBlock key = b :: b' :: rest := by
    match hl : p.cachedBlockHashToBlock key with
    | [] => simp [hl] at hlen
    | [x] => simp [hl] at hlen
    | b :: b' :: rest => exact ⟨b, b', rest, rfl⟩
  have hb := (h.cached_iff b key).mp (by simp [hl])
  have hb' := (h.cached_iff b' key).mp (by simp [hl])
  rcases hinj b (h.cached_lt b key hb).2 b' (h.cached_lt b' key hb').2 (hb.trans hb'.symm)
    with heq | hnone
  · have := h.cached_nodup key
    simp [hl, heq] at this
  · rw [hb] at hnone
    cases hnone

theorem admission_good (ops : List (Op Nat)) (hops : ∀ s, GoodRun s ops) :
    GoodRun (Session.init attentionEvents) (admission 0 2 :: ops) := by
  have hcall : NewCall (init attentionEvents) (sampleRequest 0 2).1 2 0 := by
    refine ⟨rfl, rfl, .inl (by decide), by decide, fun _ => ?_, fun hits cached h => ?_⟩
    · exact (by decide : (2 : Int) / 1 ≤ 2)
    · cases h
      decide
  exact ⟨⟨hcall, predictable_of_no_hits rfl⟩, fun s _ => hops s⟩

theorem evictedOps_events : EventRun attentionEvents evictedOps := by
  have hinit : (Session.init attentionEvents : Session Nat).kv.pool.SoleBlocks := by
    intro key
    simp [Session.init, KVConfig.init, KVCacheManager.init, BlockPool.init]
  refine ⟨?_, ⟨hinit, ?_, sampleRequest_tokens 0 2⟩, fun s1 h1 => ⟨trivial, fun s2 h2 => ⟨?_, ?_⟩⟩⟩
  · simp [attentionEvents, eventConfig, sampleSpec]
  · exact (by decide : ∀ m ∈ (attentionEvents.init : KVCacheManager Nat).managers, m.blocks 0 = [])
  · have hrun : (Session.init attentionEvents).run [admission 0 2, .free 0] = .ok s2 := by
      simp [Session.run, Trace.run, h1, h2, bind, Except.bind]
    have hinv := Session.run_inv (Session.init_inv attentionEvents (by
      simp [KVConfig.NoCachedCross, attentionEvents, eventConfig, sampleSpec]))
      (admission_good [.free 0] (fun s => ⟨⟨trivial, trivial⟩, fun _ _ => trivial⟩)) hrun
    have hval : ((Session.init attentionEvents).run [admission 0 2, .free 0]).toOption.all (fun s =>
        s.kv.pool.numGpuBlocks = 10 ∧ ∀ b < 10, ∀ b' < 10,
          s.kv.pool.blockHash b = s.kv.pool.blockHash b' → b = b' ∨ s.kv.pool.blockHash b = none) =
        true := by
      decide +kernel
    rw [hrun] at hval
    obtain ⟨hnum, hinj⟩ := of_decide_eq_true hval
    refine soleBlocks_of_injective hinv.owned.owned.hash ?_
    rw [hnum]
    exact hinj
  · exact fun _ _ => trivial

/-- After the eviction the events still describe the map. -/
theorem evictedOps_described : ∃ s : Session Nat,
    (Session.init attentionEvents).run evictedOps = .ok s ∧ HashesDescribed s.kv.pool ∧
      Unhashed s ∧ EventsDescribe s.kv.pool := by
  have hok : ((init attentionEvents : Session Nat).run evictedOps).toOption.any
      (fun _ => true) = true := by
    decide +kernel
  obtain ⟨s, hrun, -⟩ := ok_of_any hok
  obtain ⟨hhash, hcaching, hevents⟩ := run_described attentionEvents evictedOps s hrun
  refine ⟨s, hrun, hhash, hcaching ?_ ?_, hevents rfl evictedOps_events⟩
  · simp [KVConfig.NoCachedCross, attentionEvents, eventConfig, sampleSpec]
  · exact admission_good [.free 0, .evict [1]] (fun s => ⟨⟨trivial, trivial⟩, fun _ _ =>
      ⟨⟨trivial, trivial⟩, fun _ _ => trivial⟩⟩)

/-- Two requests with the same token, cached under one key; one of the blocks is evicted. -/
def duplicateOps : List (Op Nat) := [admission 0 1, admission 1 1, .evict [1]]

def tokenKey : BlockKey := ([.block .noneHash [7] []], 0)

/-- The last event about the key says that it is gone, but the other block is still cached; and in
align mode the event of one cached block has the tokens of the two null blocks before it. -/
theorem described_counter :
    (∃ s : Session Nat, (Session.init attentionEvents).run duplicateOps = .ok s ∧
      s.kv.pool.cachedBlockHashToBlock tokenKey = [2] ∧
      KVCacheEvent.lastMention s.kv.pool.kvEventQueue tokenKey = some false) ∧
    ∃ s : Session Nat, (Session.init alignEvents).run [admission 0 3] = .ok s ∧
      ∃ event ∈ s.kv.pool.kvEventQueue, ¬ event.TokensMatch := by
  constructor
  · have hval : ((init attentionEvents).run duplicateOps).toOption.any (fun s =>
        s.kv.pool.cachedBlockHashToBlock tokenKey = [2] ∧
        KVCacheEvent.lastMention s.kv.pool.kvEventQueue tokenKey = some false) = true := by
      decide +kernel
    obtain ⟨s, hrun, hval⟩ := ok_of_any hval
    exact ⟨s, hrun, of_decide_eq_true hval⟩
  · have hval : ((init alignEvents).run [admission 0 3]).toOption.any (fun s =>
        ∃ event ∈ s.kv.pool.kvEventQueue, ¬ event.TokensMatch) = true := by
      decide +kernel
    obtain ⟨s, hrun, hval⟩ := ok_of_any hval
    exact ⟨s, hrun, of_decide_eq_true hval⟩

end TailBlend.Ownership
