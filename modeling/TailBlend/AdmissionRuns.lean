import TailBlend.AdmissionCap

/-! The admission cap over whole runs of the cache manager. -/
namespace TailBlend.Admission
open BlockPool Manager KVCacheManager Ownership List
variable {α : Type} [DecidableEq α]

/-- The scheduler admits a request without slots. With several groups the hits of a recycling
group are the blocks of the cached tokens, as `allocate_slots` documents it. -/
structure AdmitCall (c : KVConfig) (k : Nat) (kv : KVCacheManager α) (req : KVRequest α)
    (n k' ext : Nat) : Prop where
  tokens : n ≤ c.maxNumBatchedTokens
  lookahead : k' ≤ k
  computed : req.numComputedTokens = 0
  fresh : ∀ m ∈ kv.managers, m.numCachedBlock.contains req.requestId = false
  hits : ∀ hits cached, kv.getComputedBlocks req = .ok (hits, cached) →
    (cached + ext : Int) ≤ kv.maxModelLen ∧
    (1 < kv.managers.length → ∀ e ∈ kv.managers.zipIdx, e.1.spec.recycles = true →
      (hits.getD e.2 []).length * e.1.blockSize = cached)

structure GoOnCall (c : KVConfig) (k : Nat) (kv : KVCacheManager α) (req : KVRequest α)
    (n k' : Nat) : Prop where
  tokens : n ≤ c.maxNumBatchedTokens
  lookahead : k' ≤ k
  slots : ∀ m ∈ kv.managers, m.spec.recycles = true →
    req.numComputedTokens ≤ (m.blocks req.requestId).length * m.blockSize

def CapOp (c : KVConfig) (k : Nat) (kv : KVCacheManager α) : Op α → Prop
  | .newRequest req n k' ext _ _ _ => AdmitCall c k kv req.1 n k' ext
  | .allocate req n k' _ _ _ => GoOnCall c k kv req.1 n k'
  | _ => True

def CapRun (c : KVConfig) (k : Nat) (kv : KVCacheManager α) (ops : List (Op α)) : Prop :=
  Trace.Meets step (CapOp c k) kv ops

section runs
variable {c : KVConfig} {k : Nat} {kv kv' : KVCacheManager α}

variable {req : KVRequest α} {hits : List (List Nat)}

omit [DecidableEq α] in
theorem length_hits_of_single {cached : Nat} (he : kv.getComputedBlocks req = .ok (hits, cached))
    (hone : kv.managers.length = 1) {i : Nat} {m : Manager α} (hm : kv.managers[i]? = some m) :
    (hits.getD i []).length * m.blockSize = cached := by
  have hi : kv.specs[i]? = some m.spec := by simp [specs, hm]
  rcases getComputedBlocks_cases he with
    ⟨hnil, rfl⟩ | ⟨-, ⟨spec, _, rows, hspecs, -, rfl, rfl⟩ | ⟨hmany, -⟩⟩
  · rw [getD_of_forall_nil hnil, length_nil, Nat.zero_mul]
  · rw [hspecs, getElem?_singleton] at hi
    split_ifs at hi with hzero
    cases hi
    simp [hzero, CacheHit.column, Manager.blockSize]
  · have hspecs : kv.specs.length = 1 := by rw [specs, length_map, hone]
    obtain ⟨spec, hspec⟩ := length_eq_one_iff.mp hspecs
    exact absurd hspec (hmany spec)

theorem capCall_newRequest (h : CapInv c k kv) {n k' ext enc : Nat} {delay fit : Bool}
    (hcall : AdmitCall c k kv req n k' ext) {cached : Nat}
    (he : kv.getComputedBlocks req = .ok (hits, cached)) :
    CapCall c k kv req (admitArgs hits cached n k' ext enc delay fit) := by
  obtain ⟨hfit, hmany⟩ := hcall.hits hits cached he
  have hlen (i : Nat) (m : Manager α) (hm : kv.managers[i]? = some m)
      (hrec : m.spec.recycles = true) : (hits.getD i []).length * m.blockSize = cached := by
    have hi := (List.getElem?_eq_some_iff.mp hm).1
    by_cases hone : kv.managers.length = 1
    · exact length_hits_of_single he hone hm
    · exact hmany (by omega) (m, i) (mem_zipIdx_iff_getElem?.mpr hm) hrec
  have htokens := hcall.tokens
  have hlook := hcall.lookahead
  have hcomp := hcall.computed
  refine ⟨?_, ?_, ?_, fun hc => ⟨?_, fun i m hm hrec => ⟨?_, ?_, ?_⟩⟩, fun hc m hm hrec => ?_⟩
  · simp only [admitArgs]
    omega
  · simp only [admitArgs]
    omega
  · simp only [admitArgs, numLocalComputedTokens]
    omega
  · simp only [admitArgs, numLocalComputedTokens]
    omega
  · exact hcall.fresh m (mem_of_getElem? hm)
  · exact getComputedBlocks_nullsFirst h.pool he hm hrec
  · have := hlen i m hm hrec
    simp only [admitArgs, newComputedBlockList, Option.getD_some, numLocalComputedTokens]
    omega
  · -- no hits at all, so that no token is computed
    obtain ⟨i, hi⟩ := mem_iff_getElem?.mp hm
    simp only [Commits, admitArgs, not_or] at hc
    have hnil : hits.getD i [] = [] := by
      refine getD_of_forall_nil (fun l hl => ?_) i
      by_contra hne
      exact hc.1 (any_eq_true.mpr ⟨l, hl, by simpa using hne⟩)
    have hzero := hlen i m hi hrec
    rw [hnil] at hzero
    have htotal :
        kv.totalComputedTokens req (admitArgs hits cached n k' ext enc delay fit) = 0 := by
      simp only [totalComputedTokens, numLocalComputedTokens, admitArgs]
      simp at hzero
      omega
    rw [htotal, numSkippedBlocks]
    have := m.spec.getNumSkippedTokens_le (le_refl 0)
    have h0 : m.spec.getNumSkippedTokens 0 / (m.blockSize : Int) ≤ 0 :=
      Int.ediv_nonpos_of_nonpos_of_neg this (by exact_mod_cast m.spec.blockSize_pos)
    omega

theorem capCall_allocate (h : CapInv c k kv) {n k' enc : Nat} {delay fit : Bool}
    (hcall : GoOnCall c k kv req n k') (hcomp : 0 ≤ req.numComputedTokens) :
    CapCall c k kv req (allocateArgs n k' enc delay fit) := by
  have htokens := hcall.tokens
  have hlook := hcall.lookahead
  refine ⟨?_, ?_, ?_, fun hc => ?_, fun hc m hm hrec => ?_⟩
  · simp only [allocateArgs]
    omega
  · simp only [allocateArgs]
    omega
  · simpa [allocateArgs, numLocalComputedTokens] using hcomp
  · simp only [Commits, allocateArgs] at hc
    rcases hc with hc | hc
    · obtain ⟨l, hl, hne⟩ := any_eq_true.mp hc
      simp [emptyBlocks_nil hl] at hne
    · omega
  · have hslots := hcall.slots m hm hrec
    have hbs : (0 : Int) < m.blockSize := by exact_mod_cast m.spec.blockSize_pos
    have htotal : kv.totalComputedTokens req (allocateArgs n k' enc delay fit) =
        min req.numComputedTokens c.maxModelLen := by
      simp [totalComputedTokens, numLocalComputedTokens, allocateArgs, h.maxModelLen]
    have hmax := c.maxModelLen_pos
    rw [htotal]
    set t := min req.numComputedTokens c.maxModelLen
    have hskip : m.spec.getNumSkippedTokens t ≤ t := m.spec.getNumSkippedTokens_le (by omega)
    have hdiv : m.spec.getNumSkippedTokens t / (m.blockSize : Int) ≤
        (m.blocks req.requestId).length := by
      rw [← Int.lt_add_one_iff, Int.ediv_lt_iff_lt_mul hbs, add_mul]
      omega
    rw [numSkippedBlocks]
    omega

theorem GroupOK.free {b M : Int} {m : Manager α} (h : GroupOK b M k m) (p : BlockPool) (r : α) :
    GroupOK b M k (m.free p r).2 := by
  have hspec : (m.free p r).2.spec = m.spec := by
    simp only [Manager.free]
    split <;> rfl
  refine ⟨hspec ▸ h.fits, fun a cap hcap => ?_⟩
  rw [hspec] at hcap
  obtain ⟨hn, hle⟩ := h.capped a cap hcap
  have hblocks : (m.free p r).2.blocks a = if a = r then [] else m.blocks a := by
    simp only [Manager.free, Manager.blocks, Dict.getD_erase]
  rw [hblocks]
  split_ifs
  · exact ⟨nullsFirst_nil, le_trans (by simp [held]) hle⟩
  · exact ⟨hn, hle⟩

theorem freeAll_capped (r : α) {b M : Int} {p : BlockPool} {ms : List (Manager α)}
    (hp : p.NullKept) (h : ∀ m ∈ ms, GroupOK b M k m) :
    (freeAll r p ms).1.NullKept ∧ ∀ m ∈ (freeAll r p ms).2, GroupOK b M k m := by
  induction ms generalizing p with
  | nil => exact ⟨hp, by simp [freeAll]⟩
  | cons m ms ih =>
    obtain ⟨hq, hrest⟩ := ih (p := (m.free p r).1) (hp.freeBlocks (m.blocks r).reverse)
      (fun a ha => h a (by simp [ha]))
    refine ⟨hq, fun a ha => ?_⟩
    simp only [freeAll, mem_cons] at ha
    rcases ha with rfl | ha
    · exact (h m (by simp)).free p r
    · exact hrest a ha

theorem step_capInv {op : Op α} (h : CapInv c k kv) (hop : CapOp c k kv op)
    (he : step kv op = .ok kv') : CapInv c k kv' := by
  cases op with
  | newRequest req n k' ext enc delay fit =>
    simp only [step, seq_ok_iff] at he
    obtain ⟨⟨hits, cached⟩, hget, ⟨kv1, res⟩, hslots, he⟩ := he
    cases he
    exact h.allocateSlots (capCall_newRequest h hop hget) hslots
  | allocate req n k' enc delay fit =>
    simp only [step, seq_ok_iff] at he
    obtain ⟨⟨kv1, res⟩, hslots, he⟩ := he
    cases he
    exact h.allocateSlots (capCall_allocate h hop req.2) hslots
  | cacheBlocks req t =>
    simp only [step, KVCacheManager.cacheBlocks] at he
    split_ifs at he
    · exact h.cache he
    · cases he
      exact h
  | removeSkipped r t =>
    have hpost := (h.removeSkipped he).1
    exact h.of_groups ⟨hpost.1, fun i m hm => (hpost.2.1 i m hm).1, hpost.2.2⟩
  | free r =>
    cases he
    obtain ⟨hp, hg⟩ := freeAll_capped r h.pool h.groups
    exact ⟨hp, h.maxModelLen, hg⟩
  | evict ids =>
    simp only [step, KVCacheManager.evictBlocks, seq_ok_iff] at he
    obtain ⟨q, hq, he⟩ := he
    cases he
    exact ⟨h.pool.evictBlocks hq, h.maxModelLen, h.groups⟩
  | resetPrefixCache =>
    cases he
    exact ⟨h.pool.resetPrefixCache, h.maxModelLen, h.groups⟩
  | newStep =>
    cases he
    refine ⟨h.pool, h.maxModelLen, fun m hm => ?_⟩
    obtain ⟨m0, hm0, rfl⟩ := mem_map.mp hm
    exact ⟨(h.groups m0 hm0).fits, (h.groups m0 hm0).capped⟩

theorem runOps_capInv {ops : List (Op α)} (h : CapInv c k kv) (hops : CapRun c k kv ops)
    (he : runOps kv ops = .ok kv') : CapInv c k kv' :=
  Trace.run_induct (fun _ _ _ h hop hs => step_capInv h hop hs) h hops he

theorem init_capInv (c : KVConfig) (hb : 0 ≤ c.maxNumBatchedTokens)
    (hfits : ∀ g ∈ c.groups, g.spec.WindowFits c.maxNumBatchedTokens c.maxModelLen k) :
    CapInv c k (c.init : KVCacheManager α) := by
  refine ⟨nullKept_init _ _ _ _, rfl, fun m hm => ?_⟩
  obtain ⟨⟨g, i⟩, hg, rfl⟩ := mem_map.mp hm
  refine ⟨hfits g (mem_of_getElem? (mem_zipIdx_iff_getElem?.mp hg)), fun a cap hcap => ?_⟩
  exact ⟨nullsFirst_nil, KVCacheSpec.cap_nonneg hb c.maxModelLen_pos.le hcap⟩

end runs

instance (c : KVConfig) (k : Nat) (kv : KVCacheManager α) (op : Op α) :
    Decidable (CapOp c k kv op) :=
  match op with
  | .newRequest req n k' ext _ _ _ =>
    decidable_of_iff ((n ≤ c.maxNumBatchedTokens ∧ k' ≤ k ∧ req.1.numComputedTokens = 0 ∧
      ∀ m ∈ kv.managers, m.numCachedBlock.contains req.1.requestId = false) ∧
      ∀ x, kv.getComputedBlocks req.1 = .ok x → (x.2 + ext : Int) ≤ kv.maxModelLen ∧
        (1 < kv.managers.length → ∀ e ∈ kv.managers.zipIdx, e.1.spec.recycles = true →
          (x.1.getD e.2 []).length * e.1.blockSize = x.2))
      ⟨fun ⟨⟨h1, h2, h3, h4⟩, h5⟩ => ⟨h1, h2, h3, h4, fun _ _ he => h5 _ he⟩,
        fun ⟨h1, h2, h3, h4, h5⟩ => ⟨⟨h1, h2, h3, h4⟩, fun _ he => h5 _ _ he⟩⟩
  | .allocate req n k' _ _ _ =>
    decidable_of_iff (n ≤ c.maxNumBatchedTokens ∧ k' ≤ k ∧
      ∀ m ∈ kv.managers, m.spec.recycles = true →
        req.1.numComputedTokens ≤ (m.blocks req.1.requestId).length * m.blockSize)
      ⟨fun ⟨h1, h2, h3⟩ => ⟨h1, h2, h3⟩, fun ⟨h1, h2, h3⟩ => ⟨h1, h2, h3⟩⟩
  | .cacheBlocks _ _ | .removeSkipped _ _ | .free _ | .evict _ | .resetPrefixCache | .newStep =>
    .isTrue trivial

instance (c : KVConfig) (k : Nat) (kv : KVCacheManager α) (ops : List (Op α)) :
    Decidable (CapRun c k kv ops) := Trace.decidableMeets step (CapOp c k) kv ops

/-- Where the largest step fits behind the window, no request ever holds more blocks of a
recycling group than the admission cap. -/
theorem runOps_held_le_cap (c : KVConfig) (hb : 0 ≤ c.maxNumBatchedTokens) (k : Nat)
    (hfits : ∀ g ∈ c.groups, g.spec.WindowFits c.maxNumBatchedTokens c.maxModelLen k)
    (ops : List (Op α)) (hops : CapRun c k c.init ops) (kv : KVCacheManager α)
    (hrun : runOps c.init ops = .ok kv) (m : Manager α) (hm : m ∈ kv.managers) (r : α) (cap : Int)
    (hcap : m.spec.maxAdmissionBlocksPerRequest c.maxNumBatchedTokens c.maxModelLen = some cap) :
    held (m.blocks r) ≤ cap :=
  (((runOps_capInv (init_capInv c hb hfits) hops hrun).groups m hm).capped r cap hcap).2

/-! A sliding window with lookahead tokens, and chunks that are not whole blocks. -/

def recyclingConfig (kind : SpecKind) (h : kind.Valid) (maxNumBatchedTokens : Int) : KVConfig where
  groups := [⟨⟨kind, 4, ⟨1, 1, 0, none, 0⟩, Nat.le_add_left 1 3, h⟩, false⟩]
  numBlocks := 20
  hashBlockSize := 4
  enableCaching := false
  useEagle := false
  enableKvCacheEvents := false
  maxModelLen := 64
  maxNumBatchedTokens := maxNumBatchedTokens
  numBlocks_pos := ampleConfig.numBlocks_pos
  hashBlockSize_pos := Nat.le_add_left 1 3
  divides := nofun
  maxModelLen_pos := by decide

def longPrompt (numComputedTokens : Nat) : CountedRequest Nat :=
  ⟨{ requestId := 0
     numTokens := 20
     numComputedTokens := numComputedTokens
     allTokenIds := List.replicate 20 0
     blockHashes := []
     skipReadingPrefixCache := false
     chained := trivial }, Int.natCast_nonneg _⟩

def prefillSteps (k : Nat) : Nat → List Nat → List (Op Nat)
  | _, [] => []
  | computed, n :: ns =>
    (if computed = 0 then .newRequest (longPrompt 0) n 0 0 0 false false
      else .allocate (longPrompt computed) n k 0 false false) :: prefillSteps k (computed + n) ns

def overCap (c : KVConfig) (kv : KVCacheManager Nat) : Bool :=
  kv.managers.any (fun m => (m.spec.maxAdmissionBlocksPerRequest c.maxNumBatchedTokens
    c.maxModelLen).any (fun cap => cap < (held (m.blocks 0) : Int)))

theorem prefill_over_cap :
    (CapRun (recyclingConfig (.slidingWindow 4) (by decide) 4) 3
        (recyclingConfig (.slidingWindow 4) (by decide) 4).init (prefillSteps 3 0 [4, 2, 4]) ∧
      (runOps (recyclingConfig (.slidingWindow 4) (by decide) 4).init
        (prefillSteps 3 0 [4, 2, 4])).toOption.any
          (overCap (recyclingConfig (.slidingWindow 4) (by decide) 4)) = true) ∧
    (CapRun (recyclingConfig (.chunkedLocal 5) (by decide) 3) 0
        (recyclingConfig (.chunkedLocal 5) (by decide) 3).init
        (prefillSteps 0 0 [3, 3, 3, 3, 2, 3]) ∧
      (runOps (recyclingConfig (.chunkedLocal 5) (by decide) 3).init
        (prefillSteps 0 0 [3, 3, 3, 3, 2, 3])).toOption.any
          (overCap (recyclingConfig (.chunkedLocal 5) (by decide) 3)) = true) := by
  decide +kernel

/-- The same steps without lookahead tokens. -/
theorem prefill_within_cap : ∃ kv : KVCacheManager Nat,
    runOps (recyclingConfig (.slidingWindow 4) (by decide) 4).init (prefillSteps 0 0 [4, 2, 4]) =
      .ok kv ∧ ∀ m ∈ kv.managers, ∀ cap,
        m.spec.maxAdmissionBlocksPerRequest 4 64 = some cap → held (m.blocks 0) ≤ cap := by
  have hok : (runOps (recyclingConfig (.slidingWindow 4) (by decide) 4).init
    (prefillSteps 0 0 [4, 2, 4])).toOption.any (fun _ => true) = true := by decide +kernel
  obtain ⟨kv, hrun, -⟩ := ok_of_any hok
  exact ⟨kv, hrun, fun m hm cap hcap => runOps_held_le_cap
    (recyclingConfig (.slidingWindow 4) (by decide) 4) (by decide) 0 (by decide)
    (prefillSteps 0 0 [4, 2, 4]) (by decide +kernel) kv hrun m hm 0 cap hcap⟩
end TailBlend.Admission
