import TailBlend.SlotPrediction

/-! `allocate_slots` over all managers: it returns, takes no more blocks than predicted, and
changes nothing but blocks outside the window when it returns `None`. -/
namespace TailBlend.Ownership
open BlockPool Manager KVCacheManager List
variable {α : Type} [DecidableEq α]

/-- Managers before and after an operation, place by place. -/
def Each (kv kv' : KVCacheManager α) (R : Nat → Manager α → Manager α → Prop) : Prop :=
  ∀ (i : Nat) m, kv.managers[i]? = some m → ∃ m', kv'.managers[i]? = some m' ∧ R i m m'

theorem run_budget {ρ : Type} (kv : KVCacheManager α)
    {f : Nat → BlockPool → Manager α → Except PyError (BlockPool × Manager α × ρ)}
    (E : Nat → BlockPool → Prop) (cost : Nat → Manager α → Int)
    (R : Nat → Manager α → Manager α → Prop)
    (hstep : ∀ p done m rest, Owned p (done ++ m :: rest) → Private p (done ++ m :: rest) →
      SameConfig kv.pool p → kv.managers[done.length]? = some m → m.groupId = done.length →
      E done.length p → cost done.length m ≤ p.numFreeBlocks →
      ∃ p' m' x, f done.length p m = .ok (p', m', x) ∧ Kept p p' done m m' rest ∧
        Private p' (done ++ m' :: rest) ∧ E (done.length + 1) p' ∧ R done.length m m' ∧
        p.numFreeBlocks - cost done.length m ≤ p'.numFreeBlocks)
    (hpos : ∀ (i : Nat) m, kv.managers[i]? = some m → 0 ≤ cost i m) (h : KVOwned kv)
    (hp : Private kv.pool kv.managers) (hE : E 0 kv.pool)
    (hsum : (kv.managers.zipIdx.map (fun e => cost e.2 e.1)).sum ≤ kv.pool.numFreeBlocks) :
    ∃ kv' xs, kv.run f = .ok (kv', xs) ∧ KVKept kv kv' ∧ Private kv'.pool kv'.managers ∧
      E kv.managers.length kv'.pool ∧ Each kv kv' R ∧
      kv.pool.numFreeBlocks - (kv.managers.zipIdx.map (fun e => cost e.2 e.1)).sum ≤
        kv'.pool.numFreeBlocks := by
  let J : Nat → BlockPool → List (Manager α) → Prop := fun i p ms =>
    Owned p ms ∧ Private p ms ∧ SameConfig kv.pool p ∧ E i p ∧
    ms.map (fun m => m.groupId) = range kv.managers.length ∧
    ms.map (fun m => m.spec) = kv.specs
  obtain ⟨p', ms', xs, hrun, ⟨ho, hp', hcfg, hE', hids, hspecs⟩, hR, hnum⟩ :=
    threadM_budget J (fun p => p.numFreeBlocks) cost R (by
      rintro p done m rest ⟨ho, hp, hcfg, hE, hids, hspecs⟩ hm hc
      have hid : m.groupId = done.length := by
        have h1 := congrArg (fun l => l[done.length]?) hids
        have hlt : done.length < kv.managers.length := (List.getElem?_eq_some_iff.mp hm).1
        simp only [getElem?_range hlt] at h1
        simpa using h1
      obtain ⟨p', m', x, hf, hk, hp', hE', hR, hnum⟩ := hstep p done m rest ho hp hcfg hm hid hE hc
      refine ⟨p', m', x, hf, ⟨hk.owned, hp', hcfg.trans hk.config, hE', ?_, ?_⟩, hR, hnum⟩
      · simpa [hk.groupId] using hids
      · simpa [hk.spec] using hspecs) hpos
      ⟨h.owned, hp, SameConfig.refl _, hE, h.ids, rfl⟩ hsum
  have hlen : ms'.length = kv.managers.length := threadM_length hrun
  refine ⟨{ kv with pool := p', managers := ms' }, xs, ?_, ⟨⟨ho, ?_⟩, hcfg, hspecs, rfl, rfl⟩, hp',
    hE', hR, hnum⟩
  · rw [run, hrun]
    rfl
  · rw [hids, hlen]

structure SlotInv (kv : KVCacheManager α) (granted : α → Option Int) : Prop where
  owned : KVOwned kv
  priv : Private kv.pool kv.managers
  ledger : ∀ m ∈ kv.managers, Ledger m granted
  hashSize : kv.pool.enableCaching = true →
    ∀ spec ∈ kv.specs, kv.pool.hashBlockSize ∣ spec.blockSize
  cross : kv.pool.enableCaching = true → ∀ spec ∈ kv.specs, spec.kind ≠ .crossAttention
  maxModelLen : 0 < kv.maxModelLen

variable {kv kv' : KVCacheManager α} {R : Nat → Manager α → Manager α → Prop}

omit [DecidableEq α] in
theorem spec_mem {m : Manager α} (hm : m ∈ kv.managers) : m.spec ∈ kv.specs := mem_map_of_mem hm

theorem SlotInv.of_kept {granted granted' : α → Option Int} (h : SlotInv kv granted)
    (hk : KVKept kv kv') (hp : Private kv'.pool kv'.managers)
    (hl : ∀ m ∈ kv'.managers, Ledger m granted') : SlotInv kv' granted' := by
  refine ⟨hk.inv, hp, hl, ?_, ?_, hk.maxModelLen ▸ h.maxModelLen⟩
  · rw [hk.config.caching, hk.config.hashSize, hk.specs]
    exact h.hashSize
  · rw [hk.config.caching, hk.specs]
    exact h.cross

omit [DecidableEq α] in
theorem Each.forall_mem {P : Manager α → Prop}
    (h : Each kv kv' R) (hs : kv'.specs = kv.specs)
    (hR : ∀ i m m', kv.managers[i]? = some m → m'.spec = m.spec → R i m m' → P m') :
    ∀ m ∈ kv'.managers, P m := by
  intro m' hm'
  obtain ⟨i, hi⟩ := mem_iff_getElem?.mp hm'
  obtain ⟨m, hm, hspec⟩ := getElem?_of_specs hs hi
  obtain ⟨m1, hm1, hRm⟩ := h i m hm
  rw [hi] at hm1
  cases hm1
  exact hR i m m' hm hspec hRm

section phases
variable {kv : KVCacheManager α} {granted : α → Option Int} {r : α}

omit [DecidableEq α] in
theorem sum_zero_cost (kv : KVCacheManager α) :
    (kv.managers.zipIdx.map (fun _ => (0 : Int))).sum = 0 := by
  simp

variable {t tm enc total : Int} {hits : List (List Nat)} {kv : KVCacheManager α}

/-- A step of the coordinator that returns nothing. -/
abbrev noResult (x : Except PyError (BlockPool × Manager α)) :
    Except PyError (BlockPool × Manager α × Unit) := do
  let (p, m) ← x
  return (p, m, ())

theorem SlotInv.removeSkipped (h : SlotInv kv granted) (ht : 0 ≤ t) (r : α) :
    ∃ kv', kv.removeSkippedBlocks r t = .ok kv' ∧ KVKept kv kv' ∧ SlotInv kv' granted ∧
      Released kv.pool kv'.pool ∧
      Each kv kv' (fun _ m m' => Trimmed m m' r (m.spec.getNumSkippedTokens t)) := by
  obtain ⟨kv', xs, hrun, hk, hp, hrel, heach, -⟩ := run_budget kv
    (f := fun _ p m => noResult (m.removeSkippedBlocks p r t))
    (fun _ p => Released kv.pool p ∧ 0 ≤ p.numFreeBlocks) (fun _ _ => 0)
    (fun _ m m' => Trimmed m m' r (m.spec.getNumSkippedTokens t)) (by
      rintro p done m rest ho hp hcfg hm - ⟨hrel, hnn⟩ -
      have hmem := mem_of_getElem? hm
      obtain ⟨p', m', hstep, htrim⟩ := removeSkipped_total p ((h.ledger m hmem).lastOK r) ht
      obtain ⟨hk, hp', hrel'⟩ := removeSkipped_private ho hp hstep
      refine ⟨p', m', (), ?_, hk, hp', ⟨hrel.trans hrel', hnn.trans hrel'.numFree⟩, htrim, ?_⟩
      · rw [hstep]
        rfl
      · rw [sub_zero]
        exact hrel'.numFree) (fun _ _ _ => le_rfl) h.owned h.priv
    ⟨Released.refl _, by rw [h.owned.owned.pool.count]; positivity⟩
    (by rw [sum_zero_cost, h.owned.owned.pool.count]; positivity)
  refine ⟨kv', ?_, hk, h.of_kept hk hp ?_, hrel.1, heach⟩
  · rw [KVCacheManager.removeSkippedBlocks, hrun]
    rfl
  · refine heach.forall_mem hk.specs (fun i m m' hm _ htrim => htrim.ledger ?_)
    exact h.ledger m (mem_of_getElem? hm)

abbrev hitsCost (kv : KVCacheManager α) (hits : List (List Nat)) (loc ext : Int) : Int :=
  (kv.managers.zipIdx.map (fun e => computedCost kv.pool e.1 (hits.getD e.2 []) loc ext)).sum

theorem SlotInv.computed (h : SlotInv kv granted) (hr : granted r = none) {loc ext : Int}
    (hh : HitsOK kv hits) (hoff : kv.pool.enableCaching = false → ∀ i, hits.getD i [] = [])
    (hsafe : 0 < ext → ExternalSafe kv hits (loc + ext))
    (hsum : hitsCost kv hits loc ext ≤ kv.pool.numFreeBlocks) :
    ∃ kv', kv.allocateNewComputedBlocks r hits loc ext = .ok kv' ∧ KVKept kv kv' ∧
      Private kv'.pool kv'.managers ∧
      Each kv kv' (fun i m m' => Listed m m' r (hits.getD i []) loc ext) ∧
      kv.pool.numFreeBlocks - hitsCost kv hits loc ext ≤ kv'.pool.numFreeBlocks := by
  have hfit (i : Nat) (m : Manager α) (hm : kv.managers[i]? = some m) :
      ExternalFits m (hits.getD i []) loc ext :=
    fun hx => ⟨(hsafe hx).nonneg, (hsafe hx).fits i m hm⟩
  obtain ⟨kv', xs, hrun, hk, hp, -, heach, hnum⟩ := run_budget kv
    (f := fun i p m => noResult (m.allocateNewComputedBlocks p r (hits.getD i []) loc ext))
    (fun i p => HitsFrom kv.managers.length hits ext i p ∧ ∀ b, kv.pool.refCnt b ≤ p.refCnt b)
    (fun i m => computedCost kv.pool m (hits.getD i []) loc ext)
    (fun i m m' => Listed m m' r (hits.getD i []) loc ext) (by
      rintro p done m rest ho hp hcfg hm hid ⟨hE, href⟩ hcost
      have hmem := List.mem_of_getElem? hm
      have hlt := (List.getElem?_eq_some_iff.mp hm).1
      have hg : GroupHits p m.groupId (hits.getD done.length []) := hid ▸ (hE _ le_rfl hlt).1
      -- hits already touched by an earlier group are no longer evictable
      have hless := computedCost_mono m (hits.getD done.length []) loc ext href
        h.owned.owned.pool.nonneg
      obtain ⟨p', m', hstep, hp', hlisted, hnum⟩ := computed_total ho hp
        ((h.ledger m hmem).idle hr) hg (fun hc => hoff (hcfg.caching ▸ hc) _)
        (fun hk => hoff (by
          by_contra hc
          exact h.cross (by simpa using hc) _ (spec_mem hmem) hk) _)
        (hfit _ m hm) (hless.trans hcost)
      obtain ⟨hkept, href', hhash⟩ := allocateComputed_effect ho hg (hfit _ m hm) hstep
      refine ⟨p', m', (), ?_, hkept, hp', ⟨hE.step href' hhash,
        fun b => (href b).trans (href' b)⟩, hlisted, by omega⟩
      rw [hstep]
      rfl) (fun i m hm => computedCost_nonneg (hfit i m hm)) h.owned h.priv
    ⟨hh.hitsFrom hsafe, fun _ => le_rfl⟩ hsum
  refine ⟨kv', ?_, hk, hp, heach, hnum⟩
  rw [KVCacheManager.allocateNewComputedBlocks, hrun]
  rfl

def groupTokens (m : Manager α) (numTokens numEncoderTokens : Int) : Int :=
  if m.spec.kind = .crossAttention then numEncoderTokens else numTokens

abbrev growCost (kv : KVCacheManager α) (r : α) (t tm enc : Int) (len : Manager α × Nat → Int) : Int :=
  (kv.managers.zipIdx.map (fun e => newCount e.1 r (len e) (groupTokens e.1 t enc) tm)).sum

abbrev heldLen (r : α) (e : Manager α × Nat) : Int := (e.1.blocks r).length

theorem allocate_phase (h : KVOwned kv) (hp : Private kv.pool kv.managers)
    (hfits : ∀ m ∈ kv.managers, AlignFits m (m.blocks r).length tm)
    (hcached : ∀ m ∈ kv.managers, r ∈ m.allocatedBlockReqs →
      numCached m r + specBlocks m.spec ≤ (m.blocks r).length)
    (hfirst : ∀ m ∈ kv.managers, FirstTokens m r tm)
    (hsum : growCost kv r t tm enc (heldLen r) ≤ kv.pool.numFreeBlocks) :
    ∃ kv' xs, kv.allocateNewBlocks r t tm enc = .ok (kv', xs) ∧ KVKept kv kv' ∧
      Private kv'.pool kv'.managers ∧
      Each kv kv' (fun _ m m' => Placed m m' r (groupTokens m t enc) tm) ∧
      kv.pool.numFreeBlocks - growCost kv r t tm enc (heldLen r) ≤ kv'.pool.numFreeBlocks := by
  obtain ⟨kv', xs, hrun, hk, hp', -, heach, hnum⟩ := run_budget kv
    (f := fun _ p m => m.allocateNewBlocks p r (groupTokens m t enc) tm)
    (fun _ _ => True)
    (fun _ m => newCount m r (m.blocks r).length (groupTokens m t enc) tm)
    (fun _ m m' => Placed m m' r (groupTokens m t enc) tm) (by
      intro p done m rest ho hp _ hm _ _ hcost
      have hmem := mem_of_getElem? hm
      obtain ⟨p', m', xs, hstep, hp', hplaced, hnum⟩ :=
        allocate_total ho hp (hfits m hmem) (hcached m hmem) hcost
      exact ⟨p', m', xs, hstep, ho.allocate (hfirst m hmem) hstep, hp', trivial, hplaced,
        hnum.ge⟩) (fun _ m _ => newCount_nonneg m r _ _ _) h hp trivial hsum
  exact ⟨kv', xs, hrun, hk, hp', heach, hnum⟩

theorem SlotInv.cache (h : SlotInv kv granted) (hcaching : kv.pool.enableCaching = true)
    {req : KVRequest α} {g : Int} (hg : granted req.requestId = some g)
    (hh : HashesCover kv.pool req) (h0 : 0 ≤ t) (ht : t ≤ req.numTokens) (htg : t ≤ g) :
    ∃ kv', kv.coordinatorCacheBlocks req t = .ok kv' ∧ SlotInv kv' granted ∧
      kv.pool.numFreeBlocks ≤ kv'.pool.numFreeBlocks := by
  obtain ⟨kv', xs, hrun, hk, hp, -, heach, hnum⟩ := run_budget kv
    (f := fun _ p m => noResult (m.cacheBlocks p req t))
    (fun _ _ => True) (fun _ _ => 0)
    (fun _ m m' => CachedUpTo m m' req.requestId t) (by
      intro p done m rest ho hp hcfg hm _ _ _
      have hs := spec_mem (mem_of_getElem? hm)
      have hc : p.enableCaching = true := hcfg.caching.trans hcaching
      have hcover : HashesCover p req := by rwa [HashesCover, hcfg.hashSize]
      obtain ⟨p', m', hstep, hp', hcached, hnum⟩ := cache_total ho hp hc (h.cross hcaching _ hs)
        hcover h0 ht (by rw [hcfg.hashSize]; exact h.hashSize hcaching _ hs)
        ((h.ledger m (mem_of_getElem? hm)).serving hg |>.numFull_le
          (h.cross hcaching _ hs) htg)
      refine ⟨p', m', (), ?_, ho.cache hc hstep, hp', trivial, hcached, by omega⟩
      rw [hstep]
      rfl) (fun _ _ _ => le_rfl) h.owned h.priv trivial
    (by rw [sum_zero_cost, h.owned.owned.pool.count]; positivity)
  refine ⟨kv', ?_, h.of_kept hk hp ?_, ?_⟩
  · rw [coordinatorCacheBlocks, hrun]
    rfl
  · refine heach.forall_mem hk.specs (fun i m m' hm hs hR => ?_)
    have hmem := mem_of_getElem? hm
    have hl := h.ledger m hmem
    have := hl.update (g := some g) hs hR.other (hR.serving hs
      (h.cross hcaching _ (spec_mem hmem)) (hl.serving hg) h0 htg)
    rwa [← hg, Function.update_eq_self] at this
  · rw [sum_zero_cost, sub_zero] at hnum
    exact hnum

omit [DecidableEq α] in
theorem Each.sum_eq {kv' : KVCacheManager α}
    (h : Each kv kv' R) (hs : kv'.specs = kv.specs) (f g : Manager α × Nat → Int)
    (hfg : ∀ i m m', R i m m' → m'.spec = m.spec → g (m', i) = f (m, i)) :
    (kv'.managers.zipIdx.map g).sum = (kv.managers.zipIdx.map f).sum := by
  have hlen : kv'.managers.length = kv.managers.length := by
    have := congrArg length hs
    simpa [specs] using this
  congr 1
  refine ext_getElem? (fun i => ?_)
  simp only [getElem?_map, getElem?_zipIdx]
  cases hm : kv.managers[i]? with
  | none =>
    have : kv'.managers[i]? = none := by
      rw [getElem?_eq_none_iff] at hm ⊢
      omega
    rw [this]
    rfl
  | some m =>
    obtain ⟨m', hm', hR⟩ := h i m hm
    obtain ⟨m0, hm0, hspec⟩ := getElem?_of_specs hs hm'
    rw [hm] at hm0
    cases hm0
    rw [hm']
    simp [hfg i m m' hR hspec]

def groupPredict (kv : KVCacheManager α) (r : α) (t : Int) (hits : List (List Nat))
    (enc total tm : Int) (cap : Bool) (e : Manager α × Nat) : Except PyError Int :=
  if e.1.spec.kind = .crossAttention then
    e.1.getNumBlocksToAllocate kv.pool r enc [] 0 enc cap
  else e.1.getNumBlocksToAllocate kv.pool r t (hits.getD e.2 []) total tm cap

theorem predicted_of_groups {cap : Bool} (g : Manager α × Nat → Int)
    (h : ∀ e ∈ kv.managers.zipIdx, ∃ v, groupPredict kv r t hits enc total tm cap e = .ok v ∧
      g e ≤ v) :
    ∃ n, kv.getNumBlocksToAllocate r t hits enc total tm cap = .ok n ∧
      (kv.managers.zipIdx.map g).sum ≤ n := by
  obtain ⟨vs, hvs, hle⟩ := mapM_sum_le g h
  refine ⟨vs.sum, ?_, hle⟩
  have hrun : kv.getNumBlocksToAllocate r t hits enc total tm cap =
      (kv.managers.zipIdx.mapM (groupPredict kv r t hits enc total tm cap) >>=
        fun counts => pure counts.sum) := rfl
  rw [hrun, hvs]
  rfl

theorem groupPredict_cross {e : Manager α × Nat} (hk : e.1.spec.kind = .crossAttention) :
    ∃ v, groupPredict kv r t hits enc total tm false e = .ok v ∧
      newCount e.1 r (e.1.blocks r).length (groupTokens e.1 t enc) tm ≤ v := by
  have hpred : ∃ v, e.1.getNumBlocksToAllocate kv.pool r enc [] 0 enc false = .ok v ∧
      newCount e.1 r (e.1.blocks r).length enc enc ≤ v :=
    predict_serving le_rfl (fun h => absurd hk h) (fun n h => by rw [hk] at h; cases h)
  obtain ⟨v, hv, hle⟩ := hpred
  refine ⟨v, ?_, ?_⟩
  · rw [groupPredict, if_pos hk, hv]
  · simpa only [groupTokens, newCount, hk, if_true] using hle

theorem predicted_serving (hhits : ∀ i, hits.getD i [] = []) (h0 : 0 ≤ total)
    (hcov : ∀ m ∈ kv.managers, m.spec.kind ≠ .crossAttention →
      total ≤ (m.blocks r).length * m.blockSize)
    (hfits : ∀ m ∈ kv.managers, AlignFits m (m.blocks r).length tm) :
    ∃ n, kv.getNumBlocksToAllocate r t hits enc total tm false = .ok n ∧
      growCost kv r t tm enc (heldLen r) ≤ n := by
  refine predicted_of_groups _ ?_
  rintro ⟨m, i⟩ he
  have hmem : m ∈ kv.managers := fst_mem_of_mem_zipIdx he
  by_cases hk : m.spec.kind = .crossAttention
  · exact groupPredict_cross hk
  · simp only [groupPredict, groupTokens, hk, hhits i]
    exact predict_serving h0 (hcov m hmem) (hfits m hmem)

theorem SlotInv.predicted_idle (h : SlotInv kv granted) (hr : granted r = none) {loc ext : Int}
    (enc : Int) (hsafe : 0 < ext → ExternalSafe kv hits (loc + ext))
    (hcall : ∀ (i : Nat) m, kv.managers[i]? = some m →
      AlignCall m 0 (hits.getD i []) ext (loc + ext) tm) (htm : tm ≤ t)
    (htot : 0 < ext → loc + ext ≤ tm) :
    ∃ n, kv.getNumBlocksToAllocate r t hits enc (loc + ext) tm false = .ok n ∧
      (n ≤ kv.pool.numFreeBlocks → hitsCost kv hits loc ext + growCost kv r t tm enc
        (fun e => computedLen e.1 (hits.getD e.2 []) loc ext) ≤ n) := by
  let refused : Manager α × Nat → Prop := fun e =>
    e.1.spec.kind ≠ .crossAttention ∧ Refused kv.pool e.1 (hits.getD e.2 [])
  let need : Manager α × Nat → Int := fun e =>
    computedCost kv.pool e.1 (hits.getD e.2 []) loc ext +
      newCount e.1 r (computedLen e.1 (hits.getD e.2 []) loc ext) (groupTokens e.1 t enc) tm
  have hfit (e : Manager α × Nat) (he : e ∈ kv.managers.zipIdx) :
      ExternalFits e.1 (hits.getD e.2 []) loc ext := fun hx =>
    ⟨(hsafe hx).nonneg, (hsafe hx).fits e.2 e.1 (mem_zipIdx_iff_getElem?.mp he)⟩
  have hneed (e : Manager α × Nat) (he : e ∈ kv.managers.zipIdx) : 0 ≤ need e :=
    add_nonneg (computedCost_nonneg (hfit e he)) (newCount_nonneg _ _ _ _ _)
  have hgroup : ∀ e ∈ kv.managers.zipIdx, ∃ v,
      groupPredict kv r t hits enc (loc + ext) tm false e = .ok v ∧
        (if refused e then (kv.pool.numGpuBlocks : Int) + 1 else need e) ≤ v := by
    rintro ⟨m, i⟩ he
    have hm : kv.managers[i]? = some m := mem_zipIdx_iff_getElem?.mp he
    have hidle := (h.ledger m (mem_of_getElem? hm)).idle hr
    by_cases hk : m.spec.kind = .crossAttention
    · obtain ⟨v, hv, hle⟩ : ∃ v, groupPredict kv r t hits enc (loc + ext) tm false (m, i) = .ok v ∧
          newCount m r (m.blocks r).length (groupTokens m t enc) tm ≤ v := groupPredict_cross hk
      refine ⟨v, hv, ?_⟩
      rw [if_neg (fun hf => hf.1 hk)]
      simpa only [need, computedCost, computedLen, hk, if_true, hidle.blocks, length_nil,
        Nat.cast_zero, zero_add] using hle
    · obtain ⟨v, hv, hle⟩ := predict_idle (p := kv.pool) hidle hk (hfit _ he) (hcall i m hm) htm
        htot
      refine ⟨v, by simpa only [groupPredict, hk, if_false] using hv, ?_⟩
      simpa only [refused, need, groupTokens, ne_eq, hk, not_false_eq_true, true_and,
        if_false] using hle
  obtain ⟨n, hn, hle⟩ := predicted_of_groups _ hgroup
  refine ⟨n, hn, fun hfree => ?_⟩
  have hnone : ∀ e ∈ kv.managers.zipIdx, ¬ refused e := by
    intro e he hre
    have h1 := single_le_sum (l := kv.managers.zipIdx.map (fun e =>
      if refused e then (kv.pool.numGpuBlocks : Int) + 1 else need e)) (by
        intro x hx
        obtain ⟨e', he', rfl⟩ := mem_map.mp hx
        split_ifs
        · positivity
        · exact hneed e' he') _ (mem_map_of_mem he)
    rw [if_pos hre] at h1
    have h2 := h.owned.owned.pool.numFree_le
    omega
  rw [← sum_map_add]
  refine le_trans (le_of_eq ?_) hle
  congr 1
  exact map_congr_left (fun e he => by rw [if_neg (hnone e he)])

end phases
end TailBlend.Ownership
