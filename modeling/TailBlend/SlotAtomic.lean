import TailBlend.SlotCalls

/-! One call of `allocate_slots`: it raises nothing, `None` changes nothing but skipped
blocks, and success takes no more blocks than predicted. -/
namespace TailBlend.Ownership
open BlockPool Manager KVCacheManager List
variable {α : Type} [DecidableEq α]

/-- All lists, counts and hashes stay, except for blocks of `r` wholly outside the attention
window, which are replaced by the null block and released. -/
structure Untouched (kv kv' : KVCacheManager α) (r : α) (totalComputedTokens : Int) : Prop where
  lists : Each kv kv' (fun _ m m' => (∀ a, a ≠ r → m'.blocks a = m.blocks a) ∧
    (m'.blocks r).length = (m.blocks r).length ∧
    ∀ j : Nat, (m'.blocks r)[j]? = (m.blocks r)[j]? ∨ (m'.blocks r)[j]? = some 0 ∧
      ((j : Int) + 1) * m.blockSize ≤ m.spec.getNumSkippedTokens totalComputedTokens)
  refCnt : ∀ b, b ≠ 0 → kv'.pool.refCnt b + (kv.getBlocks r).flatten.count b =
    kv.pool.refCnt b + (kv'.getBlocks r).flatten.count b
  null : kv'.pool.refCnt 0 = kv.pool.refCnt 0
  hash : kv'.pool.blockHash = kv.pool.blockHash
  map : kv'.pool.cachedBlockHashToBlock = kv.pool.cachedBlockHashToBlock

theorem Untouched.refl (kv : KVCacheManager α) (r : α) (t : Int) :
    Untouched kv kv r t :=
  ⟨fun _ m hm => ⟨m, hm, fun _ _ => rfl, rfl, fun _ => Or.inl rfl⟩, fun _ _ => rfl, rfl, rfl, rfl⟩

def SlotResult (kv : KVCacheManager α) (req : KVRequest α) (a : SlotArgs) : Prop :=
  match kv.allocateSlots req a with
  | .error _ => False
  | .ok (kv', none) => Untouched kv kv' req.requestId (kv.totalComputedTokens req a)
  | .ok (kv', some _) => ∃ kv₁ n,
    kv.removeSkippedBlocks req.requestId (kv.totalComputedTokens req a) = .ok kv₁ ∧
      kv₁.predictedBlocks req a = .ok n ∧
      kv₁.pool.numFreeBlocks - n ≤ kv'.pool.numFreeBlocks

theorem count_getBlocks (kv : KVCacheManager α) (r : α) (b : Nat) :
    (kv.getBlocks r).flatten.count b = (kv.managers.map (fun m => (m.blocks r).count b)).sum := by
  rw [count_flatten, getBlocks, map_map]
  rfl

variable {kv kv' : KVCacheManager α}

omit [DecidableEq α] in
theorem Each.forall₂ {R : Nat → Manager α → Manager α → Prop} (h : Each kv kv' R)
    (hs : kv'.specs = kv.specs) :
    Forall₂ (fun m m' => ∃ i, R i m m') kv.managers kv'.managers := by
  have hlen : kv.managers.length = kv'.managers.length := by
    have := congrArg length hs
    simpa [specs] using this.symm
  refine forall₂_iff_get.mpr ⟨hlen, fun i h1 h2 => ?_⟩
  obtain ⟨m', hm', hR⟩ := h i _ (getElem?_eq_getElem h1)
  rw [getElem?_eq_getElem h2, Option.some.injEq] at hm'
  exact ⟨i, by simpa only [get_eq_getElem, hm'] using hR⟩

omit [DecidableEq α] in
theorem sum_balanced {ms ms' : List (Manager α)} {f g : Manager α → Nat}
    (h : Forall₂ (fun m m' => f m' + g m = f m + g m') ms ms') :
    (ms'.map f).sum + (ms.map g).sum = (ms.map f).sum + (ms'.map g).sum := by
  induction h with
  | nil => rfl
  | cons hm _ ih =>
    simp only [map_cons, sum_cons]
    omega

theorem untouched_of_trimmed {r : α} {t : Int} (h : KVOwned kv) (hk : KVKept kv kv')
    (hrel : Released kv.pool kv'.pool)
    (heach : Each kv kv' (fun _ m m' => Trimmed m m' r (m.spec.getNumSkippedTokens t))) :
    Untouched kv kv' r t := by
  refine ⟨fun i m hm => ?_, fun b hb => ?_, hrel.null, hrel.hash, hrel.map⟩
  · obtain ⟨m', hm', htrim⟩ := heach i m hm
    exact ⟨m', hm', fun a ha => (htrim.other a ha).blocks, htrim.length, htrim.null⟩
  have hsum := sum_balanced ((heach.forall₂ hk.specs).imp (fun m m' ⟨i, ht⟩ => ht.occ b))
  rw [hk.inv.owned.ref b hb, h.owned.ref b hb, count_getBlocks, count_getBlocks]
  exact_mod_cast hsum

section commit
variable {kv : KVCacheManager α} {granted : α → Option Int} {req : KVRequest α} {a : SlotArgs}

theorem commitComputed_nil (hblocks : ∀ l ∈ kv.newComputedBlockList a, l = [])
    (hext : a.numExternalComputedTokens ≤ 0) : kv.commitComputed req a = .ok kv := by
  rw [commitComputed, if_neg]
  rintro (hany | hpos)
  · obtain ⟨l, hl, hne⟩ := any_eq_true.mp hany
    simp [hblocks l hl] at hne
  · omega

variable {g : Int}

theorem SlotInv.commitCache (h : SlotInv kv granted) (hg : granted req.requestId = some g)
    (hcover : kv.pool.enableCaching = true → HashesCover kv.pool req) (hnt : 0 ≤ req.numTokens)
    (h0 : 0 ≤ kv.numTokensMainModel req a) (hle : kv.numTokensMainModel req a ≤ g) :
    ∃ kv', kv.commitCache req a = .ok kv' ∧ SlotInv kv' granted ∧
      kv.pool.numFreeBlocks ≤ kv'.pool.numFreeBlocks := by
  by_cases hoff : kv.pool.enableCaching = false ∨ a.delayCacheBlocks = true
  · exact ⟨kv, by rw [KVCacheManager.commitCache, if_pos hoff], h, le_rfl⟩
  have hcaching : kv.pool.enableCaching = true := by simpa using fun h => hoff (.inl h)
  obtain ⟨kv', hrun, h', hnum⟩ := h.cache hcaching hg (hcover hcaching) (le_min h0 hnt)
    (min_le_right _ _) ((min_le_left _ _).trans hle)
  refine ⟨kv', ?_, h', hnum⟩
  rw [KVCacheManager.commitCache, if_neg hoff]
  exact hrun

theorem SlotInv.commitSlots_of_computed {kv1 : KVCacheManager α} (h : SlotInv kv granted)
    (hcomp : kv.commitComputed req a = .ok kv1) (hk : KVKept kv kv1)
    (hp : Private kv1.pool kv1.managers)
    (hcover : kv.pool.enableCaching = true → HashesCover kv.pool req) (hnt : 0 ≤ req.numTokens)
    (hpos : 0 < kv.numTokensMainModel req a) (hg : kv.numTokensMainModel req a ≤ g)
    (hfits : ∀ m ∈ kv1.managers,
      AlignFits m (m.blocks req.requestId).length (kv.numTokensMainModel req a))
    (hcached : ∀ m ∈ kv1.managers, req.requestId ∈ m.allocatedBlockReqs →
      numCached m req.requestId + specBlocks m.spec ≤ (m.blocks req.requestId).length)
    (hledger : ∀ m1 ∈ kv1.managers, ∀ m2 : Manager α, m2.spec = m1.spec → Placed m1 m2 req.requestId
        (groupTokens m1 (kv.numTokensNeedSlot req a) a.numEncoderTokens)
        (kv.numTokensMainModel req a) →
      Ledger m2 (Function.update granted req.requestId (some g)))
    (hsum : growCost kv1 req.requestId (kv.numTokensNeedSlot req a) (kv.numTokensMainModel req a)
      a.numEncoderTokens (heldLen req.requestId) ≤ kv1.pool.numFreeBlocks) :
    ∃ kv' xs, kv.commitSlots req a = .ok (kv', xs) ∧
      SlotInv kv' (Function.update granted req.requestId (some g)) ∧
      kv1.pool.numFreeBlocks - growCost kv1 req.requestId (kv.numTokensNeedSlot req a)
        (kv.numTokensMainModel req a) a.numEncoderTokens (heldLen req.requestId) ≤
          kv'.pool.numFreeBlocks := by
  have hmain (kv' : KVCacheManager α) (hk' : KVKept kv kv') :
      kv'.numTokensMainModel req a = kv.numTokensMainModel req a ∧
        kv'.numTokensNeedSlot req a = kv.numTokensNeedSlot req a := by
    simp only [numTokensMainModel, numTokensNeedSlot, totalComputedTokens, hk'.maxModelLen,
      and_self]
  obtain ⟨kv2, xs, hrun2, hk2, hp2, hplaced, hnum2⟩ := allocate_phase hk.inv hp hfits hcached
    (fun _ _ => .inr hpos) hsum
  have hk' := hk.trans hk2
  have h2 : SlotInv kv2 (Function.update granted req.requestId (some g)) := by
    refine h.of_kept hk' hp2 (hplaced.forall_mem hk2.specs ?_)
    exact fun i m1 m2 hm1 hs hpl => hledger m1 (mem_of_getElem? hm1) m2 hs hpl
  obtain ⟨kv3, hrun3, h3, hnum3⟩ := h2.commitCache (a := a) (g := g)
    (Function.update_self _ _ _) (by
      rw [hk'.config.caching, HashesCover, hk'.config.hashSize]
      exact hcover) hnt (by rw [(hmain kv2 hk').1]; exact hpos.le)
    (by rw [(hmain kv2 hk').1]; exact hg)
  refine ⟨kv3, xs, ?_, h3, hnum2.trans hnum3⟩
  rw [commitSlots, hcomp]
  simp only [bind, Except.bind, (hmain kv1 hk).1, (hmain kv1 hk).2, hrun2, hrun3]
  rfl

theorem SlotInv.commit_serving (h : SlotInv kv granted) (hg : granted req.requestId = some g)
    (hblocks : ∀ l ∈ kv.newComputedBlockList a, l = []) (hext : a.numExternalComputedTokens = 0)
    (hcover : kv.pool.enableCaching = true → HashesCover kv.pool req) (hnt : 0 ≤ req.numTokens)
    (h0 : 0 ≤ numLocalComputedTokens req a) (hle : numLocalComputedTokens req a ≤ g)
    (hpos : 0 < kv.numTokensMainModel req a)
    (hslot : kv.numTokensMainModel req a ≤ kv.numTokensNeedSlot req a) (hfits : ∀ m ∈ kv.managers,
      AlignFits m (m.blocks req.requestId).length (kv.numTokensMainModel req a)) :
    ∃ n, kv.predictedBlocks req a = .ok n ∧ (n ≤ kv.pool.numFreeBlocks →
      ∃ kv' xs, kv.commitSlots req a = .ok (kv', xs) ∧
        SlotInv kv' (Function.update granted req.requestId
          (some (max g (kv.numTokensMainModel req a)))) ∧
        kv.pool.numFreeBlocks - n ≤ kv'.pool.numFreeBlocks) := by
  have hserving (m : Manager α) (hm : m ∈ kv.managers) := (h.ledger m hm).serving hg
  obtain ⟨n, hn, hsum⟩ := predicted_serving (r := req.requestId) (t := kv.numTokensNeedSlot req a)
    (fun i => getD_of_forall_nil hblocks i) h0 (fun m hm hk => by
      have hcov := (hserving m hm).covers hk
      nlinarith) hfits
  refine ⟨n, by rw [predictedBlocks, hext, add_zero]; exact hn, fun hfree => ?_⟩
  obtain ⟨kv', xs, hrun, h', hnum⟩ := h.commitSlots_of_computed
    (commitComputed_nil hblocks hext.le) (KVKept.refl h.owned) h.priv hcover hnt hpos
    (le_max_right g _) hfits (fun m hm _ => (hserving m hm).cached) (by
      intro m hm m' hs hpl
      have hsv := hserving m hm
      refine (h.ledger m hm).update hs hpl.other
        (hsv.grow (hpl.serving hs ?_ hsv.last hsv.plain ?_ ?_) hs hpl.grows)
      · intro hk
        rwa [groupTokens, if_neg hk]
      · have h1 := hsv.cached
        have h2 := hpl.grows
        omega
      · exact fun k hk _ => hsv.allocated k hk) (hsum.trans hfree)
  exact ⟨kv', xs, hrun, h', by omega⟩

section idle
variable (h : SlotInv kv granted) (hr : granted req.requestId = none)
  (hhits : HitsOK kv (kv.newComputedBlockList a))
  (hoff : kv.pool.enableCaching = false → ∀ i, (kv.newComputedBlockList a).getD i [] = [])
  (hnone : kv.managers ≠ [] → (∀ l ∈ kv.newComputedBlockList a, l = []) →
    a.numExternalComputedTokens ≤ 0 →
    numLocalComputedTokens req a + a.numExternalComputedTokens = 0)
  (hsafe : 0 < a.numExternalComputedTokens → ExternalSafe kv (kv.newComputedBlockList a)
    (numLocalComputedTokens req a + a.numExternalComputedTokens))
include h hr hhits hoff hnone hsafe

theorem SlotInv.commitComputed_idle {hits : List (List Nat)} {loc ext : Int}
    (hl : kv.newComputedBlockList a = hits) (hloc : numLocalComputedTokens req a = loc)
    (hext : a.numExternalComputedTokens = ext)
    (hsum : hitsCost kv hits loc ext ≤ kv.pool.numFreeBlocks) :
    ∃ kv1, kv.commitComputed req a = .ok kv1 ∧ KVKept kv kv1 ∧ Private kv1.pool kv1.managers ∧
      Each kv kv1 (fun i m m' => Listed m m' req.requestId (hits.getD i []) loc ext) ∧
      kv.pool.numFreeBlocks - hitsCost kv hits loc ext ≤ kv1.pool.numFreeBlocks := by
  subst hl hloc hext
  by_cases hany : (kv.newComputedBlockList a).any (fun l => l ≠ []) = true ∨
      a.numExternalComputedTokens > 0
  · obtain ⟨kv1, hrun, hrest⟩ := h.computed hr hhits hoff hsafe hsum
    exact ⟨kv1, by rw [commitComputed, if_pos hany, hrun], hrest⟩
  have hnil : ∀ l ∈ kv.newComputedBlockList a, l = [] := by
    intro l hl
    by_contra hne
    exact hany (.inl (any_eq_true.mpr ⟨l, hl, by simpa using hne⟩))
  have hext : a.numExternalComputedTokens ≤ 0 := by
    by_contra hpos
    exact hany (.inr (by omega))
  -- no token is computed yet, so that no block is skipped either
  have hskip (m : Manager α) : m.numSkippedBlocks 0 = 0 := by
    have := numSkippedBlocks_le_cdiv m (le_refl (0 : Int))
    simpa [cdiv] using this
  refine ⟨kv, commitComputed_nil hnil hext, KVKept.refl h.owned, h.priv, fun i m hm => ?_, ?_⟩
  · have hmem := mem_of_getElem? hm
    have hidle := (h.ledger m hmem).idle hr
    have hzero := hnone (ne_nil_of_mem hmem) hnil hext
    refine ⟨m, hm, fun b _ => SameFor.refl m b, ?_, ?_, rfl, rfl⟩
    · have hwin := windowExternalTokens_le m (numLocalComputedTokens req a)
        a.numExternalComputedTokens
      have hcount : externalCount m [] (numLocalComputedTokens req a)
          a.numExternalComputedTokens = 0 := if_neg (by omega)
      rw [hidle.blocks, getD_of_forall_nil hnil, computedLen, hcount, hzero, hskip]
      simp
    · simp [numCached, Dict.getD, hidle.cached]
  have hnonneg : 0 ≤ hitsCost kv (kv.newComputedBlockList a) (numLocalComputedTokens req a)
      a.numExternalComputedTokens := by
    refine sum_nonneg (fun x hx => ?_)
    obtain ⟨e, -, rfl⟩ := mem_map.mp hx
    exact computedCost_nonneg (fun hpos => absurd hpos (by omega))
  omega

theorem SlotInv.commit_idle
    (hcall : ∀ (i : Nat) m, kv.managers[i]? = some m →
      AlignCall m 0 ((kv.newComputedBlockList a).getD i []) a.numExternalComputedTokens
        (numLocalComputedTokens req a + a.numExternalComputedTokens) (kv.numTokensMainModel req a))
    (hcover : kv.pool.enableCaching = true → HashesCover kv.pool req) (hnt : 0 ≤ req.numTokens)
    (h0 : 0 ≤ numLocalComputedTokens req a + a.numExternalComputedTokens)
    (htot : numLocalComputedTokens req a + a.numExternalComputedTokens ≤
      kv.numTokensMainModel req a)
    (hpos : 0 < kv.numTokensMainModel req a)
    (hslot : kv.numTokensMainModel req a ≤ kv.numTokensNeedSlot req a) :
    ∃ n, kv.predictedBlocks req a = .ok n ∧ (n ≤ kv.pool.numFreeBlocks →
      ∃ kv' xs, kv.commitSlots req a = .ok (kv', xs) ∧
        SlotInv kv' (Function.update granted req.requestId
          (some (kv.numTokensMainModel req a))) ∧
        kv.pool.numFreeBlocks - n ≤ kv'.pool.numFreeBlocks) := by
  obtain ⟨n, hn, hsum⟩ := h.predicted_idle hr a.numEncoderTokens hsafe hcall hslot (fun _ => htot)
  refine ⟨n, hn, fun hfree => ?_⟩
  obtain ⟨hits, hl⟩ : ∃ hits, kv.newComputedBlockList a = hits := ⟨_, rfl⟩
  obtain ⟨loc, hloc⟩ : ∃ loc, numLocalComputedTokens req a = loc := ⟨_, rfl⟩
  obtain ⟨ext, hext⟩ : ∃ ext, a.numExternalComputedTokens = ext := ⟨_, rfl⟩
  have hcomputed := h.commitComputed_idle hr hhits hoff hnone hsafe hl hloc hext
  rw [hl, hloc, hext] at hsum hcall hsafe
  rw [hloc, hext] at h0 htot
  rw [hl] at hoff
  have hnewpos : 0 ≤ growCost kv req.requestId (kv.numTokensNeedSlot req a)
      (kv.numTokensMainModel req a) a.numEncoderTokens
      (fun e => computedLen e.1 (hits.getD e.2 []) loc ext) := by
    refine sum_nonneg (fun x hx => ?_)
    obtain ⟨e, -, rfl⟩ := mem_map.mp hx
    exact newCount_nonneg _ _ _ _ _
  obtain ⟨kv1, hcomp, hk, hp, hlisted, hnum1⟩ := hcomputed (by omega)
  have hsame : growCost kv1 req.requestId (kv.numTokensNeedSlot req a)
      (kv.numTokensMainModel req a) a.numEncoderTokens (heldLen req.requestId) =
      growCost kv req.requestId (kv.numTokensNeedSlot req a) (kv.numTokensMainModel req a)
        a.numEncoderTokens (fun e => computedLen e.1 (hits.getD e.2 []) loc ext) := by
    refine hlisted.sum_eq hk.specs _ _ (fun i m m' hm hs => ?_)
    simp only [newCount_congr hs hm.allocated, groupTokens, hs, hm.length]
  have hidle (i : Nat) (m : Manager α) (hm : kv.managers[i]? = some m) : Idle m req.requestId :=
    (h.ledger m (mem_of_getElem? hm)).idle hr
  have hcross (i : Nat) (m : Manager α) (hm : kv.managers[i]? = some m)
      (hkind : m.spec.kind = .crossAttention) : hits.getD i [] = [] := by
    refine hoff ?_ i
    by_contra hc
    exact h.cross (by simpa using hc) _ (spec_mem (mem_of_getElem? hm)) hkind
  have hfit (i : Nat) (m : Manager α) (hm : kv.managers[i]? = some m) :
      ExternalFits m (hits.getD i []) loc ext :=
    fun hx => ⟨(hsafe hx).nonneg, (hsafe hx).fits i m hm⟩
  obtain ⟨kv', xs, hrun, h', hnum⟩ := h.commitSlots_of_computed hcomp hk hp hcover hnt hpos le_rfl
    (hlisted.forall_mem hk.specs (fun i m m1 hm hs hl k hkind => by
      have hlen := computedLen_le_of_align (hs ▸ hkind) h0 htot (hcall i m hm)
      have hbs : m1.blockSize = m.blockSize := congrArg KVCacheSpec.blockSize hs
      rw [hl.length, hbs]
      omega))
    (hlisted.forall_mem hk.specs (fun i m m1 hm hs hl hmem => by
      rw [hl.allocated] at hmem
      exact absurd hmem (hidle i m hm).allocated))
    (hlisted.forall_mem hk.specs (fun i m m1 hm hs hl m2 hs2 hpl => by
      refine (h.ledger m (mem_of_getElem? hm)).update (hs2.trans hs)
        (fun b hb => (hl.other b hb).trans (hpl.other b hb)) ?_
      refine hl.serving (hidle i m hm) hs hs2 hpl (hcross i m hm) (hfit i m hm) h0 htot
        (hcall i m hm) (fun hkind => ?_)
      rwa [groupTokens, hs, if_neg hkind]))
    (by omega)
  exact ⟨kv', xs, hrun, h', by omega⟩

end idle
end commit

theorem SlotInv.allocateSlots {granted : α → Option Int} {req : KVRequest α} {a : SlotArgs}
    {g : Int} (h : SlotInv kv granted)
    (hne : ¬(a.numNewTokens = 0 ∧ a.numExternalComputedTokens = 0))
    (hfull : ∃ b, kv.fullSequenceFits req a = .ok b) (ht : 0 ≤ kv.totalComputedTokens req a)
    (hcommit : ∀ kv1,
      kv.removeSkippedBlocks req.requestId (kv.totalComputedTokens req a) = .ok kv1 →
      KVKept kv kv1 → SlotInv kv1 granted → Released kv.pool kv1.pool →
      Each kv kv1 (fun _ m m' => Trimmed m m' req.requestId
        (m.spec.getNumSkippedTokens (kv.totalComputedTokens req a))) →
      ∃ n, kv1.predictedBlocks req a = .ok n ∧ (n ≤ kv1.pool.numFreeBlocks →
        ∃ kv' xs, kv1.commitSlots req a = .ok (kv', xs) ∧
          SlotInv kv' (Function.update granted req.requestId (some g)) ∧
          kv1.pool.numFreeBlocks - n ≤ kv'.pool.numFreeBlocks)) :
    SlotResult kv req a ∧ ∃ kv' res, kv.allocateSlots req a = .ok (kv', res) ∧
      SlotInv kv' (if res.isSome then Function.update granted req.requestId (some g)
        else granted) := by
  obtain ⟨fits, hfull⟩ := hfull
  obtain ⟨kv1, hrem, hk1, h1, hrel, heach⟩ := h.removeSkipped ht req.requestId
  obtain ⟨n, hn, hcommit⟩ := hcommit kv1 hrem hk1 h1 hrel heach
  cases fits with
  | false =>
    have hrun : kv.allocateSlots req a = .ok (kv, none) := by
      rw [KVCacheManager.allocateSlots, if_neg hne, hfull]
      rfl
    rw [SlotResult, hrun]
    exact ⟨Untouched.refl kv _ _, kv, none, rfl, h⟩
  | true =>
    have hrun : kv.allocateSlots req a = (if n > kv1.pool.numFreeBlocks then .ok (kv1, none)
        else do
          let slots ← kv1.commitSlots req a
          return (slots.1, some slots.2)) := by
      rw [KVCacheManager.allocateSlots, if_neg hne, hfull]
      simp only [bind, Except.bind, hrem, hn]
      rfl
    by_cases hfree : n > kv1.pool.numFreeBlocks
    · rw [if_pos hfree] at hrun
      rw [SlotResult, hrun]
      exact ⟨untouched_of_trimmed h.owned hk1 hrel heach, kv1, none, rfl, h1⟩
    obtain ⟨kv', xs, hslots, h', hnum⟩ := hcommit (by omega)
    rw [if_neg hfree, hslots] at hrun
    have hrun' : kv.allocateSlots req a = .ok (kv', some xs) := hrun
    rw [SlotResult, hrun']
    exact ⟨⟨kv1, n, hrem, hn, hnum⟩, kv', some xs, rfl, h'⟩

end TailBlend.Ownership
