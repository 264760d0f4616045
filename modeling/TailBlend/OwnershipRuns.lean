import TailBlend.BlockOwnership
import TailBlend.Lib.Trace

/-! Sequences of cache-manager operations and the ownership invariant they keep. -/
namespace TailBlend.Ownership
open BlockPool Manager KVCacheManager List
variable {α : Type} [DecidableEq α]

/-- A configuration that the constructors accept. -/
structure KVConfig where
  groups : List GroupSpec
  numBlocks : Nat
  hashBlockSize : Nat
  enableCaching : Bool
  useEagle : Bool
  enableKvCacheEvents : Bool
  maxModelLen : Int
  maxNumBatchedTokens : Int
  numBlocks_pos : 0 < numBlocks
  hashBlockSize_pos : 0 < hashBlockSize
  divides : enableCaching = true → ∀ g ∈ groups, g.spec.blockSize % hashBlockSize = 0
  maxModelLen_pos : 0 < maxModelLen

def KVConfig.init (c : KVConfig) : KVCacheManager α :=
  .init c.groups c.numBlocks c.hashBlockSize c.enableCaching c.useEagle c.enableKvCacheEvents
    c.maxModelLen c.maxNumBatchedTokens

abbrev CountedRequest (α : Type) := { req : KVRequest α // 0 ≤ req.numComputedTokens }

inductive Op (α : Type) where
  /-- `get_computed_blocks`, then `allocate_slots` with its result. -/
  | newRequest (req : CountedRequest α) (numNewTokens numLookaheadTokens numExternalComputedTokens
      numEncoderTokens : Nat) (delayCacheBlocks fullSequenceMustFit : Bool)
  | allocate (req : CountedRequest α) (numNewTokens numLookaheadTokens numEncoderTokens : Nat)
      (delayCacheBlocks fullSequenceMustFit : Bool)
  | cacheBlocks (req : KVRequest α) (numComputedTokens : Int)
  | removeSkipped (r : α) (totalComputedTokens : Int)
  | free (r : α)
  | evict (blockIds : List Nat)
  | resetPrefixCache
  | newStep

def admitArgs (hits : List (List Nat)) (numNewComputedTokens : Nat) (numNewTokens
    numLookaheadTokens numExternalComputedTokens numEncoderTokens : Nat)
    (delayCacheBlocks fullSequenceMustFit : Bool) : SlotArgs where
  numNewTokens := numNewTokens
  numNewComputedTokens := numNewComputedTokens
  newComputedBlocks := some hits
  numLookaheadTokens := numLookaheadTokens
  numExternalComputedTokens := numExternalComputedTokens
  delayCacheBlocks := delayCacheBlocks
  numEncoderTokens := numEncoderTokens
  fullSequenceMustFit := fullSequenceMustFit

def allocateArgs (numNewTokens numLookaheadTokens numEncoderTokens : Nat)
    (delayCacheBlocks fullSequenceMustFit : Bool) : SlotArgs where
  numNewTokens := numNewTokens
  numNewComputedTokens := 0
  newComputedBlocks := none
  numLookaheadTokens := numLookaheadTokens
  numExternalComputedTokens := 0
  delayCacheBlocks := delayCacheBlocks
  numEncoderTokens := numEncoderTokens
  fullSequenceMustFit := fullSequenceMustFit

section
variable (kv : KVCacheManager α)

def step : Op α → Except PyError (KVCacheManager α)
  | .newRequest req n k ext enc delay fit => do
    let (hits, cached) ← kv.getComputedBlocks req.1
    let (kv, _) ← kv.allocateSlots req.1 (admitArgs hits cached n k ext enc delay fit)
    return kv
  | .allocate req n k enc delay fit => do
    let (kv, _) ← kv.allocateSlots req.1 (allocateArgs n k enc delay fit)
    return kv
  | .cacheBlocks req n => kv.cacheBlocks req n
  | .removeSkipped r n => kv.removeSkippedBlocks r n
  | .free r => .ok (kv.free r)
  | .evict ids => kv.evictBlocks ids
  | .resetPrefixCache => .ok kv.resetPrefixCache.1
  | .newStep => .ok kv.newStepStarts

def runOps (ops : List (Op α)) : Except PyError (KVCacheManager α) := Trace.run step kv ops

/-- External tokens only go to a request without blocks, with hits that fit in the computed
tokens and, beyond the first group, are in use by another request. -/
def SafeOp : Op α → Prop
  | .newRequest req _ _ ext _ _ _ => 0 < ext → NoBlocks kv req.1.requestId ∧
      ∀ hits cached, kv.getComputedBlocks req.1 = .ok (hits, cached) →
        ExternalSafe kv hits (req.1.numComputedTokens + cached + ext)
  | _ => True

def SafeRun (ops : List (Op α)) : Prop := Trace.Meets step SafeOp kv ops

def ScaleOK : Prop :=
  kv.pool.enableCaching = true → ∀ spec ∈ kv.specs, 0 < spec.blockSize / kv.pool.hashBlockSize

end

variable {kv kv' : KVCacheManager α} {p : BlockPool} {hits : List (List Nat)}
  {ms : List (Manager α)} {req : KVRequest α} {ops : List (Op α)}

theorem ScaleOK.of_kept (h : ScaleOK kv) (hk : KVKept kv kv') : ScaleOK kv' := by
  intro hc spec hs
  rw [hk.config.hashSize]
  rw [hk.config.caching] at hc
  rw [hk.specs] at hs
  exact h hc spec hs

omit [DecidableEq α] in
theorem groupHits_of_sound {spec : KVCacheSpec} {g : Nat} {blocks : List Nat}
    (hh : HashOK p) (hscale : 0 < spec.blockSize / p.hashBlockSize)
    (h : CacheHit.BlocksSound p (hashesAt req.blockHashes p.hashBlockSize spec.blockSize) g blocks)
    : GroupHits p g blocks :=
  ⟨fun _ hb => h.once hh (nodup_hashesAt (BlockHash.nodup_of_chained req.chained) hscale) hb,
    fun _ hm hb => h.key hh hm hb⟩

theorem getD_of_forall_nil (h : ∀ l ∈ hits, l = []) (i : Nat) : hits.getD i [] = [] := by
  rw [getD_eq_getElem?_getD]
  cases hi : hits[i]? with
  | none => rfl
  | some l => exact h l (mem_of_getElem? hi)

omit [DecidableEq α] in
theorem hitsOK_empty (kv : KVCacheManager α) (hits : List (List Nat)) (h : ∀ l ∈ hits, l = []) :
    HitsOK kv hits := by
  intro i _
  rw [getD_of_forall_nil h]
  exact GroupHits.nil _ _

omit [DecidableEq α] in
theorem emptyBlocks_nil {l : List Nat} (h : l ∈ kv.emptyBlocks) : l = [] := by
  simp only [emptyBlocks, mem_map] at h
  obtain ⟨_, _, rfl⟩ := h
  rfl

omit [DecidableEq α] in
/-- The lookup finds nothing, or it is that of the only group or of the search over all. -/
theorem getComputedBlocks_cases {cached : Nat}
    (he : kv.getComputedBlocks req = .ok (hits, cached)) :
    (∀ l ∈ hits, l = []) ∧ cached = 0 ∨ kv.pool.enableCaching = true ∧
      ((∃ spec eagle rows, kv.specs = [spec] ∧ CacheHit.findLongestCacheHit kv.pool spec
        (hashesAt req.blockHashes kv.pool.hashBlockSize spec.blockSize) (req.numTokens - 1).toNat
          [0] eagle spec.blockSize = .ok rows ∧
        hits = [CacheHit.column rows 0] ∧ cached = rows.length * spec.blockSize) ∨
      (∀ spec, kv.specs ≠ [spec]) ∧ CacheHit.hybrid kv.pool kv.specs kv.eagleGroupIds
        req.blockHashes (req.numTokens - 1).toNat = .ok (some (hits, cached))) := by
  unfold getComputedBlocks at he
  split_ifs at he with hoff
  · cases he
    exact .inl ⟨fun l hl => emptyBlocks_nil hl, rfl⟩
  have hcaching : kv.pool.enableCaching = true := by
    simpa using fun h => hoff (.inl h)
  unfold findLongestCacheHit at he
  rw [if_neg (by simp [hcaching])] at he
  split at he
  · rename_i spec hspecs
    simp only [CacheHit.unitary, seq_ok_iff] at he
    obtain ⟨rows, hrows, he⟩ := he
    cases he
    exact .inr ⟨hcaching, .inl ⟨spec, _, rows, hspecs, hrows, rfl, rfl⟩⟩
  rename_i hmany
  rw [seq_ok_iff] at he
  obtain ⟨res, hres, he⟩ := he
  cases res with
  | none =>
    cases he
    refine .inl ⟨fun l hl => ?_, rfl⟩
    obtain ⟨_, _, rfl⟩ := mem_map.mp hl
    rfl
  | some res =>
    cases he
    exact .inr ⟨hcaching, .inr ⟨hmany, hres⟩⟩

theorem getComputedBlocks_hits {cached : Nat} (h : KVOwned kv) (hs : ScaleOK kv)
    (he : kv.getComputedBlocks req = .ok (hits, cached)) : HitsOK kv hits := by
  rcases getComputedBlocks_cases he with ⟨hnil, -⟩ | ⟨hcaching, hfound⟩
  · exact hitsOK_empty kv _ hnil
  intro i hi
  have hspec : kv.specs[i]? = some kv.managers[i].spec := by simp [specs, hi]
  have hscale := hs hcaching _ (mem_of_getElem? hspec)
  rcases hfound with ⟨spec, eagle, rows, hspecs, hrows, rfl, -⟩ | ⟨-, hres⟩
  · rw [hspecs, getElem?_singleton] at hspec
    split_ifs at hspec with hzero
    subst hzero
    rw [← Option.some.inj hspec] at hscale
    exact groupHits_of_sound h.owned.hash hscale
      (CacheHit.column_sound (CacheHit.findLongestCacheHit_sound hrows) rfl)
  · exact groupHits_of_sound h.owned.hash hscale (CacheHit.hybrid_sound hres hspec)

theorem Owned.evicted {p' : BlockPool} (h : Owned p ms) (he : Evicted p p') : Owned p' ms := by
  refine ⟨h.pool.of_eq he.config he.refCnt he.free he.numFree, he.hashOK, ?_, h.once, ?_, h.sole,
    ?_, h.align⟩
  · rw [he.refCnt]
    exact h.ref
  · rw [he.config.num]
    exact h.lt
  intro m hm b key hb hocc hk
  rcases he.hash b with hsame | hnone
  · exact h.group m hm b key hb hocc (hsame ▸ hk)
  · rw [hnone] at hk
    cases hk

theorem KVOwned.evicted {p' : BlockPool} (h : KVOwned kv) (he : Evicted kv.pool p') :
    KVKept kv { kv with pool := p' } :=
  ⟨⟨h.owned.evicted he, h.ids⟩, he.config, rfl, rfl, rfl⟩

theorem freeAll_kept (r : α) (done ms : List (Manager α)) (h : Owned p (done ++ ms)) :
    Owned (freeAll r p ms).1 (done ++ (freeAll r p ms).2) ∧ SameConfig p (freeAll r p ms).1 ∧
      (freeAll r p ms).2.map (fun m => m.groupId) = ms.map (fun m => m.groupId) ∧
      (freeAll r p ms).2.map (fun m => m.spec) = ms.map (fun m => m.spec) := by
  induction ms generalizing p done with
  | nil => exact ⟨h, SameConfig.refl p, rfl, rfl⟩
  | cons m ms ih =>
    have hk := h.free r
    have hrest : Owned (m.free p r).1 ((done ++ [(m.free p r).2]) ++ ms) := by
      simpa using hk.owned
    obtain ⟨ho, hcfg, hids, hspecs⟩ := ih _ hrest
    refine ⟨?_, hk.config.trans hcfg, ?_, ?_⟩
    · simpa [freeAll] using ho
    · simpa [freeAll, hk.groupId] using hids
    · simpa [freeAll, hk.spec] using hspecs

theorem KVOwned.free (h : KVOwned kv) (r : α) : KVKept kv (kv.free r) := by
  obtain ⟨ho, hcfg, hids, hspecs⟩ := freeAll_kept r [] kv.managers h.owned
  have hlen : (freeAll r kv.pool kv.managers).2.length = kv.managers.length := by
    simpa using congrArg length hids
  refine ⟨⟨ho, ?_⟩, hcfg, hspecs, rfl, rfl⟩
  simp only [KVCacheManager.free, hlen]
  exact hids.trans h.ids

theorem Owned.newStep (done : List (Manager α)) (h : Owned p (done ++ ms)) :
    Owned p (done ++ ms.map Manager.newStepStarts) := by
  induction ms generalizing done with
  | nil => exact h
  | cons m ms ih =>
    have hk : Kept p p done m m.newStepStarts ms := h.of_same rfl rfl rfl rfl
    simpa using ih (done ++ [m.newStepStarts]) (by simpa using hk.owned)

theorem KVOwned.newStep (h : KVOwned kv) : KVKept kv kv.newStepStarts := by
  refine ⟨⟨Owned.newStep [] h.owned, ?_⟩, SameConfig.refl _, ?_, rfl, rfl⟩
  · simp only [KVCacheManager.newStepStarts, map_map, length_map]
    exact h.ids
  · simp only [KVCacheManager.newStepStarts, specs, map_map]
    rfl

structure RunInv (kv : KVCacheManager α) : Prop where
  owned : KVOwned kv
  scale : ScaleOK kv
  maxModelLen : 0 < kv.maxModelLen

theorem RunInv.of_kept (h : RunInv kv) (hk : KVKept kv kv') : RunInv kv' :=
  ⟨hk.inv, h.scale.of_kept hk, hk.maxModelLen ▸ h.maxModelLen⟩

omit [DecidableEq α] in
theorem numTokensMainModel_pos {req : CountedRequest α} {a : SlotArgs} (hm : 0 < kv.maxModelLen)
    (hn : 0 ≤ a.numNewTokens) (hc : 0 ≤ a.numNewComputedTokens)
    (hx : 0 ≤ a.numExternalComputedTokens)
    (hz : ¬(a.numNewTokens = 0 ∧ a.numExternalComputedTokens = 0)) :
    0 < kv.numTokensMainModel req.1 a := by
  have hr := req.2
  simp only [numTokensMainModel, totalComputedTokens, numLocalComputedTokens]
  omega

theorem step_kept {op : Op α} (h : RunInv kv) (hsafe : SafeOp kv op) (he : step kv op = .ok kv') :
    KVKept kv kv' := by
  cases op with
  | newRequest req n k ext enc delay fit =>
    simp only [step, seq_ok_iff] at he
    obtain ⟨⟨hits, cached⟩, hget, ⟨kv1, xs⟩, halloc, he⟩ := he
    cases he
    refine h.owned.allocateSlots ⟨getComputedBlocks_hits h.owned h.scale hget, ?_, ?_⟩ halloc
    · intro hx
      obtain ⟨hno, hext⟩ := hsafe (by simpa [admitArgs] using hx)
      exact ⟨hno, hext hits cached hget⟩
    intro m _
    refine .inr (numTokensMainModel_pos h.maxModelLen ?_ ?_ ?_ ?_)
    · simp [admitArgs]
    · simp [admitArgs]
    · simp [admitArgs]
    · intro hz
      rw [KVCacheManager.allocateSlots, if_pos hz] at halloc
      cases halloc
  | allocate req n k enc delay fit =>
    simp only [step, seq_ok_iff] at he
    obtain ⟨⟨kv1, xs⟩, halloc, he⟩ := he
    cases he
    have hhits : HitsOK kv (kv.newComputedBlockList (allocateArgs n k enc delay fit)) :=
      hitsOK_empty kv kv.emptyBlocks (fun l hl => emptyBlocks_nil hl)
    refine h.owned.allocateSlots ⟨hhits, ?_, ?_⟩ halloc
    · intro hx
      simp [allocateArgs] at hx
    intro m _
    refine Or.inr (numTokensMainModel_pos h.maxModelLen ?_ ?_ ?_ ?_)
    · simp [allocateArgs]
    · simp [allocateArgs]
    · simp [allocateArgs]
    · intro hz
      rw [KVCacheManager.allocateSlots, if_pos hz] at halloc
      cases halloc
  | cacheBlocks req n =>
    simp only [step, KVCacheManager.cacheBlocks] at he
    split_ifs at he with hc
    · exact h.owned.cacheBlocks hc he
    · cases he
      exact KVKept.refl h.owned
  | removeSkipped r n => exact h.owned.removeSkipped he
  | free r =>
    cases he
    exact h.owned.free r
  | evict ids =>
    simp only [step, KVCacheManager.evictBlocks, seq_ok_iff] at he
    obtain ⟨p', hp, he⟩ := he
    cases he
    exact h.owned.evicted (evictBlocks_evicted h.owned.owned.hash hp)
  | resetPrefixCache =>
    cases he
    exact h.owned.evicted (resetPrefixCache_evicted h.owned.owned.hash)
  | newStep =>
    cases he
    exact h.owned.newStep

theorem runOps_inv (h : RunInv kv) (hsafe : SafeRun kv ops)
    (he : runOps kv ops = .ok kv') : RunInv kv' :=
  Trace.run_induct (fun _ _ _ h hop hs => h.of_kept (step_kept h hop hs)) h hsafe he

theorem init_inv (c : KVConfig) : RunInv (c.init : KVCacheManager α) := by
  have hblocks (m : Manager α) (hm : m ∈ (c.init : KVCacheManager α).managers) :
      m.reqToBlocks = .empty ∧ m.allocatedBlockReqs = [] := by
    simp only [KVConfig.init, KVCacheManager.init, mem_map] at hm
    obtain ⟨g, -, rfl⟩ := hm
    exact ⟨rfl, rfl⟩
  have hocc (m : Manager α) (hm : m ∈ (c.init : KVCacheManager α).managers) (b : Nat) :
      occ m b = 0 := by
    rw [occ, (hblocks m hm).1]
    rfl
  have hnil (m : Manager α) (hm : m ∈ (c.init : KVCacheManager α).managers) (r : α) :
      m.blocks r = [] := by
    rw [Manager.blocks, (hblocks m hm).1]
    rfl
  refine ⟨⟨⟨poolOK_init _ _ _ _ c.numBlocks_pos, hashOK_init _ _ _ _, ?_, ?_, ?_, ?_, ?_, ?_⟩, ?_⟩,
    ?_, c.maxModelLen_pos⟩
  · intro b _
    have : total (c.init : KVCacheManager α).managers b = 0 := by
      rw [total, sum_eq_zero_iff]
      intro n hn
      obtain ⟨m, hm, rfl⟩ := mem_map.mp hn
      exact hocc m hm b
    rw [this]
    rfl
  · intro m hm r b _
    simp [hnil m hm r]
  · intro m hm r b hb
    simp [hnil m hm r] at hb
  · intro m hm m2 _ b _ hb
    rw [hocc m hm b] at hb
    omega
  · intro m hm b key _ hb
    rw [hocc m hm b] at hb
    omega
  · intro m hm n _ r hr
    simp [(hblocks m hm).2] at hr
  · simp only [KVConfig.init, KVCacheManager.init, map_map, length_map, length_zipIdx]
    exact (zipIdx_map_snd 0 c.groups).trans range_eq_range'.symm
  · intro hc spec hs
    simp only [KVConfig.init, KVCacheManager.init, specs, map_map, mem_map] at hs
    obtain ⟨⟨g, i⟩, hg, rfl⟩ := hs
    have hgm : g ∈ c.groups := fst_mem_of_mem_zipIdx hg
    have hdvd := Nat.dvd_of_mod_eq_zero (c.divides hc g hgm)
    exact Nat.div_pos (Nat.le_of_dvd g.spec.blockSize_pos hdvd) c.hashBlockSize_pos

/-- Block ownership: counts against occurrences, the free queue against the counts, and
no block twice among the lists of one request. -/
structure BlockOwnership (kv : KVCacheManager α) : Prop where
  refCnt : ∀ b, b ≠ 0 → kv.pool.refCnt b = total kv.managers b
  free_iff : ∀ b, b ≠ 0 → b < kv.pool.numGpuBlocks →
    (b ∈ kv.pool.freeBlockQueue ↔ kv.pool.refCnt b = 0)
  free_nodup : kv.pool.freeBlockQueue.Nodup
  once : ∀ r b, b ≠ 0 → (kv.getBlocks r).flatten.count b ≤ 1
  numFree : kv.pool.numFreeBlocks = kv.pool.freeBlockQueue.length
  null : 0 ∉ kv.pool.freeBlockQueue

omit [DecidableEq α] in
theorem sum_le_one_of_sole {f : Manager α → Nat} (hid : (ms.map (fun m => m.groupId)).Nodup)
    (h1 : ∀ m ∈ ms, f m ≤ 1)
    (hsole : ∀ m1 ∈ ms, ∀ m2 ∈ ms, 0 < f m1 → 0 < f m2 → m1.groupId = m2.groupId) :
    (ms.map f).sum ≤ 1 := by
  induction ms with
  | nil => simp
  | cons m ms ih =>
    rw [map_cons, nodup_cons] at hid
    rw [map_cons, sum_cons]
    by_cases hm : f m = 0
    · rw [hm, Nat.zero_add]
      exact ih hid.2 (fun a ha => h1 a (by simp [ha]))
        (fun a ha b hb => hsole a (by simp [ha]) b (by simp [hb]))
    have hrest : (ms.map f).sum = 0 := by
      rw [sum_eq_zero_iff]
      intro n hn
      obtain ⟨a, ha, rfl⟩ := mem_map.mp hn
      by_contra hpos
      have := hsole m (by simp) a (by simp [ha]) (by omega) (by omega)
      exact hid.1 (this ▸ mem_map_of_mem ha)
    have := h1 m (by simp)
    omega

theorem RunInv.blockOwnership (h : RunInv kv) : BlockOwnership kv := by
  have ho := h.owned.owned
  refine ⟨ho.ref, ?_, ho.pool.nodup, ?_, ho.pool.count, ?_⟩
  · intro b hb hlt
    rw [ho.pool.mem_iff]
    constructor
    · exact fun hm => hm.2.2
    · exact fun hz => ⟨Nat.pos_of_ne_zero hb, hlt, hz⟩
  · intro r b hb
    rw [count_flatten, getBlocks, map_map]
    refine sum_le_one_of_sole ?_ (fun m hm => ho.once m hm r b hb) ?_
    · rw [h.owned.ids]
      exact nodup_range
    · intro m1 h1 m2 h2 hb1 hb2
      exact ho.sole m1 h1 m2 h2 b hb (hb1.trans_le (count_le_occ m1 r b))
        (hb2.trans_le (count_le_occ m2 r b))
  · intro hm
    exact absurd ((ho.pool.mem_iff 0).mp hm).1 (by omega)

/-- Every state of a run keeps block ownership, as long as external tokens are safe. -/
theorem runOps_blockOwnership (c : KVConfig) (ops : List (Op α)) (kv : KVCacheManager α)
    (hsafe : SafeRun c.init ops) (he : runOps c.init ops = .ok kv) : BlockOwnership kv :=
  (runOps_inv (init_inv c) hsafe he).blockOwnership

omit [DecidableEq α] in
theorem externalSafe_iff {total : Int} : ExternalSafe kv hits total ↔ 0 ≤ total ∧
    (∀ e ∈ kv.managers.zipIdx, ((hits.getD e.2 []).length : Int) ≤ cdiv total e.1.blockSize) ∧
    ∀ i < hits.length, 0 < i → ∀ b ∈ hits.getD i [], b ≠ 0 → 0 < kv.pool.refCnt b := by
  constructor
  · exact fun h => ⟨h.nonneg, fun e he => h.fits e.2 e.1 (mem_zipIdx_iff_getElem?.mp he),
      fun i _ => h.held i⟩
  · rintro ⟨hnonneg, hfits, hheld⟩
    refine ⟨hnonneg, fun i m hm => hfits (m, i) (mem_zipIdx_iff_getElem?.mpr hm), fun i h0 b hb => ?_⟩
    by_cases hi : i < hits.length
    · exact hheld i hi h0 b hb
    · simp [getD_eq_getElem?_getD, getElem?_eq_none (not_lt.mp hi)] at hb

instance (total : Int) : Decidable (ExternalSafe kv hits total) :=
  decidable_of_iff' _ externalSafe_iff

instance (kv : KVCacheManager α) (op : Op α) : Decidable (SafeOp kv op) :=
  match op with
  | .newRequest req _ _ ext _ _ _ =>
    have : Decidable (∀ hits cached, kv.getComputedBlocks req.1 = .ok (hits, cached) →
        ExternalSafe kv hits (req.1.numComputedTokens + cached + ext)) :=
      decidable_of_iff (∀ x, kv.getComputedBlocks req.1 = .ok x →
        ExternalSafe kv x.1 (req.1.numComputedTokens + x.2 + ext)) Prod.forall
    have : Decidable (NoBlocks kv req.1.requestId) :=
      inferInstanceAs (Decidable (∀ m ∈ kv.managers, m.blocks req.1.requestId = []))
    inferInstanceAs (Decidable (_ → _ ∧ _))
  | .allocate .. | .cacheBlocks .. | .removeSkipped .. | .free _ | .evict _ | .resetPrefixCache
  | .newStep => .isTrue trivial

/-! Two full-attention specs and a sliding window, one token per block. -/

def sampleSpec (kind : SpecKind) (variant : Nat) (h : kind.Valid) : KVCacheSpec where
  kind := kind
  blockSize := 1
  layout := ⟨1, 1, 0, none, variant⟩
  blockSize_pos := Nat.one_pos
  kind_valid := h

def sampleConfig : KVConfig where
  groups := [⟨sampleSpec (.fullAttention .full) 0 trivial, false⟩,
    ⟨sampleSpec (.fullAttention .full) 1 trivial, false⟩,
    ⟨sampleSpec (.slidingWindow 2) 0 (by decide), false⟩]
  numBlocks := 10
  hashBlockSize := 1
  enableCaching := true
  useEagle := false
  enableKvCacheEvents := false
  maxModelLen := 100
  maxNumBatchedTokens := 100
  numBlocks_pos := by decide
  hashBlockSize_pos := Nat.one_pos
  divides := by decide
  maxModelLen_pos := by decide

def sampleRequest (r n : Nat) : CountedRequest Nat :=
  ⟨{ requestId := r
     numTokens := n
     numComputedTokens := 0
     allTokenIds := List.replicate n 7
     blockHashes := BlockHash.uniform [7] n .noneHash
     skipReadingPrefixCache := false
     chained := BlockHash.chained_uniform [7] n .noneHash }, le_rfl⟩

def ampleConfig : KVConfig := { sampleConfig with numBlocks := 20, numBlocks_pos := by decide }

/-- The second request shares the prefix of the first one, which goes on, and gets an external
token behind it. -/
def sharedPrefixOps : List (Op Nat) :=
  [.newRequest (sampleRequest 0 3) 3 0 0 0 false false, .newStep,
    .newRequest (sampleRequest 1 5) 1 0 1 0 false false]

theorem sharedPrefixOps_blockOwnership :
    ∃ kv : KVCacheManager Nat, runOps ampleConfig.init sharedPrefixOps = .ok kv ∧
      kv.getBlocks 0 = [[1, 2, 3], [4, 5, 6], [7, 8, 9]] ∧
      kv.getBlocks 1 = [[1, 2, 3, 10, 13], [4, 5, 6, 11, 14], [0, 0, 0, 12, 15]] ∧
      BlockOwnership kv := by
  have hval : (runOps ampleConfig.init sharedPrefixOps).toOption.any (fun kv =>
      kv.getBlocks 0 = [[1, 2, 3], [4, 5, 6], [7, 8, 9]] ∧
      kv.getBlocks 1 = [[1, 2, 3, 10, 13], [4, 5, 6, 11, 14], [0, 0, 0, 12, 15]]) = true := by
    decide +kernel
  obtain ⟨kv, hrun, hval⟩ := ok_of_any hval
  obtain ⟨hfirst, hsecond⟩ := of_decide_eq_true hval
  exact ⟨kv, hrun, hfirst, hsecond, runOps_blockOwnership ampleConfig sharedPrefixOps kv
    (by unfold SafeRun; decide +kernel) hrun⟩

/-- The window's blocks are evicted, so that the hit ends after one token, but the second
full-attention group keeps three hit blocks. One external token then asks for
`cdiv(2, 1) - 3` new blocks. -/
def longHitOps : List (Op Nat) :=
  [.newRequest (sampleRequest 0 3) 3 0 0 0 false false, .free 0, .evict [8, 9],
    .newRequest (sampleRequest 1 4) 1 0 1 0 false false]

theorem longHitOps_counter :
    ∃ kv : KVCacheManager Nat, runOps sampleConfig.init longHitOps = .ok kv ∧
      kv.pool.numFreeBlocks = 2 ∧ kv.pool.freeBlockQueue = [7] ∧ ¬ BlockOwnership kv := by
  have hval : (runOps sampleConfig.init longHitOps).toOption.any (fun kv =>
      kv.pool.numFreeBlocks = 2 ∧ kv.pool.freeBlockQueue = [7]) = true := by
    decide +kernel
  obtain ⟨kv, hrun, hval⟩ := ok_of_any hval
  obtain ⟨hnum, hqueue⟩ := of_decide_eq_true hval
  refine ⟨kv, hrun, hnum, hqueue, fun h => ?_⟩
  have hfree := h.numFree
  rw [hnum, hqueue] at hfree
  simp at hfree

end TailBlend.Ownership
