import TailBlend.SlotCommit

/-! The predictor against the allocator, for one manager. -/
namespace TailBlend.Ownership
open BlockPool Manager List
variable {α : Type} [DecidableEq α]

section predict
variable {p : BlockPool} {m : Manager α} {r : α}

variable {hits : List Nat} {total t tm loc ext : Int} {n : Nat}

theorem predict_ok (h : m.numCachedBlock.contains r = true → hits = []) (t total tm : Int)
    (cap : Bool) : ∃ v, m.getNumBlocksToAllocate p r t hits total tm cap = .ok v := by
  have hbase (t : Int) : ∃ v, m.baseNumBlocksToAllocate p r t hits total cap = .ok v := by
    unfold baseNumBlocksToAllocate
    by_cases hc : m.numCachedBlock.contains r = true
    · rw [if_pos hc, h hc]
      exact ⟨_, rfl⟩
    · rw [if_neg hc]
      exact ⟨_, rfl⟩
  unfold getNumBlocksToAllocate
  split
  · split_ifs
    · exact ⟨_, rfl⟩
    · exact hbase _
    · exact ⟨_, rfl⟩
  · exact hbase _

omit [DecidableEq α] in
theorem skipped_le_of_covered {len : Nat} (h0 : 0 ≤ total)
    (h : m.spec.kind ≠ .crossAttention → total ≤ len * m.blockSize) :
    m.spec.getNumSkippedTokens total / m.blockSize ≤ len := by
  have hbs : (0 : Int) < m.blockSize := by exact_mod_cast m.spec.blockSize_pos
  by_cases hk : m.spec.kind = .crossAttention
  · simp [KVCacheSpec.getNumSkippedTokens, hk]
  · have h1 := (m.spec.getNumSkippedTokens_le h0).trans (h hk)
    have h2 := Int.ediv_le_ediv hbs h1
    rwa [Int.mul_ediv_cancel _ hbs.ne'] at h2

theorem basePredict_serving
    (hskip : m.spec.getNumSkippedTokens total / m.blockSize ≤ (m.blocks r).length) :
    m.baseNumBlocksToAllocate p r t [] total false =
      .ok (max (cdiv t m.blockSize - (m.blocks r).length) 0) := by
  unfold baseNumBlocksToAllocate
  simp only [length_nil]
  split_ifs
  · rfl
  · simp only [getNumEvictableBlocks, drop_nil, countP_nil]
    congr 1
    omega

theorem predict_serving (h0 : 0 ≤ total)
    (hcov : m.spec.kind ≠ .crossAttention → total ≤ (m.blocks r).length * m.blockSize)
    (hfits : AlignFits m (m.blocks r).length tm) :
    ∃ v, m.getNumBlocksToAllocate p r t [] total tm false = .ok v ∧
      newCount m r (m.blocks r).length t tm ≤ v := by
  have hskip := skipped_le_of_covered h0 hcov
  unfold getNumBlocksToAllocate newCount
  cases hk : m.spec.kind with
  | mamba mode n =>
    simp only [hitsThisStep]
    by_cases hmode : mode = .align
    · subst hmode
      have hf := hfits n hk
      refine ⟨_, rfl, ?_⟩
      simp only [alignNumBlocksToAllocate, length_nil]
      split_ifs <;> omega
    · rw [basePredict_serving hskip]
      cases mode with
      | align => exact absurd rfl hmode
      | none | all => exact ⟨_, rfl, le_rfl⟩
  | fullAttention _ | slidingWindow _ | chunkedLocal _ | crossAttention =>
    exact ⟨_, basePredict_serving hskip, le_rfl⟩

/-- What `allocate_slots` needs of align mode: the list is not longer than the required one,
the hits lie within the tokens, and new tokens open no further block next to external
ones. -/
structure AlignCall (m : Manager α) (len : Int) (hits : List Nat) (ext total tm : Int) :
    Prop where
  fits : AlignFits m len tm
  hits : ∀ n, m.spec.kind = .mamba .align n → (hits.length : Int) ≤ cdiv tm m.blockSize
  external : ∀ n, m.spec.kind = .mamba .align n → 0 < ext →
    cdiv tm m.blockSize ≤ cdiv total m.blockSize

theorem basePredict_idle (hidle : Idle m r) (hk : m.spec.kind ≠ .crossAttention)
    (hfit : ExternalFits m hits loc ext)
    (hreq : 0 < ext → cdiv (loc + ext) m.blockSize ≤ cdiv t m.blockSize) :
    ∃ v, m.baseNumBlocksToAllocate p r t hits (loc + ext) false = .ok v ∧
      computedCost p m hits loc ext +
        max (cdiv t m.blockSize - computedLen m hits loc ext) 0 ≤ v := by
  have hnot : m.numCachedBlock.contains r = false := by simp [Dict.contains, hidle.cached]
  have hext := externalCount_nonneg hfit
  unfold baseNumBlocksToAllocate
  simp only [hnot, Bool.false_eq_true, hidle.blocks, length_nil]
  refine ⟨_, rfl, ?_⟩
  simp only [computedCost, computedLen, if_neg hk]
  have hk' : m.numSkippedBlocks (loc + ext) =
      (max 0 (m.spec.getNumSkippedTokens (loc + ext) / m.blockSize - ((0 : Nat) : Int))).toNat := by
    unfold numSkippedBlocks
    omega
  rw [← hk']
  by_cases hpos : m.windowExternalTokens loc ext > 0
  · have hx : 0 < ext := by
      have := windowExternalTokens_le m loc ext
      omega
    have hle := hreq hx
    have hcount : externalCount m hits loc ext = cdiv (loc + ext) m.blockSize -
        max (m.numSkippedBlocks (loc + ext)) hits.length := by
      rw [externalCount, if_pos hpos]
    omega
  · have hcount : externalCount m hits loc ext = 0 := by rw [externalCount, if_neg hpos]
    omega

/-- Mamba refuses hits that were cached in this step by a prediction no pool can meet. -/
def Refused (p : BlockPool) (m : Manager α) (hits : List Nat) : Prop :=
  m.spec.kind.isMamba = true ∧ m.hitsThisStep p hits = true

instance (p : BlockPool) (m : Manager α) (hits : List Nat) : Decidable (Refused p m hits) := by
  unfold Refused
  infer_instance

omit [DecidableEq α] in
theorem numSkippedBlocks_mamba {mode : MambaCacheMode} (hk : m.spec.kind = .mamba mode n)
    (ht : 0 < t) : (m.numSkippedBlocks t : Int) = cdiv t m.blockSize - 1 := by
  have hbs : 0 < m.blockSize := m.spec.blockSize_pos
  have hbs' : (0 : Int) < m.blockSize := by exact_mod_cast hbs
  have hnn : 0 ≤ (t - 1) / (m.blockSize : Int) := Int.ediv_nonneg (by omega) hbs'.le
  have hup : cdiv t m.blockSize ≤ (t - 1) / (m.blockSize : Int) + 1 := by
    rw [cdiv_le_iff _ _ hbs]
    have := Int.lt_ediv_add_one_mul_self (t - 1) hbs'
    omega
  have hlow : (t - 1) / (m.blockSize : Int) < cdiv t m.blockSize := by
    rw [lt_cdiv_iff _ _ hbs]
    have := Int.ediv_mul_le (t - 1) hbs'.ne'
    omega
  simp only [numSkippedBlocks, KVCacheSpec.getNumSkippedTokens, hk]
  omega

theorem alignPredict_idle (hidle : Idle m r) (hk : m.spec.kind = .mamba .align n)
    (hfit : ExternalFits m hits loc ext) (hcall : AlignCall m 0 hits ext (loc + ext) tm)
    (htot : 0 < ext → loc + ext ≤ tm) :
    computedCost p m hits loc ext + newCount m r (computedLen m hits loc ext) t tm ≤
      m.alignNumBlocksToAllocate p n r hits tm := by
  have hbs : 0 < m.blockSize := m.spec.blockSize_pos
  have hhits := hcall.hits n hk
  have hext := externalCount_nonneg hfit
  have hev : p.getNumEvictableBlocks (hits.drop (m.numSkippedBlocks (loc + ext))) ≤
      p.getNumEvictableBlocks hits :=
    (drop_sublist _ _).countP_le
  simp only [alignNumBlocksToAllocate, computedCost, computedLen, newCount, hk, hidle.blocks,
    if_neg hidle.allocated, length_nil, reduceCtorEq, if_false]
  by_cases hpos : m.windowExternalTokens loc ext > 0
  · have hx : 0 < ext := by
      have := windowExternalTokens_le m loc ext
      omega
    have hcount : externalCount m hits loc ext = cdiv (loc + ext) m.blockSize -
        max (m.numSkippedBlocks (loc + ext)) hits.length := by
      rw [externalCount, if_pos hpos]
    have hsame : cdiv tm m.blockSize = cdiv (loc + ext) m.blockSize :=
      le_antisymm (hcall.external n hk hx) (cdiv_mono (htot hx) hbs)
    have htotal : 0 ≤ loc + ext := (hfit hx).1
    by_cases hz : loc + ext = 0
    · have hc0 : cdiv (loc + ext) m.blockSize = 0 := by rw [hz]; simp [cdiv]
      split_ifs <;> omega
    · have hskip := numSkippedBlocks_mamba hk (t := loc + ext) (by omega)
      split_ifs <;> omega
  · have hcount : externalCount m hits loc ext = 0 := by rw [externalCount, if_neg hpos]
    split_ifs <;> omega

theorem predict_idle (hidle : Idle m r) (hk : m.spec.kind ≠ .crossAttention)
    (hfit : ExternalFits m hits loc ext) (hcall : AlignCall m 0 hits ext (loc + ext) tm)
    (htm : tm ≤ t) (htot : 0 < ext → loc + ext ≤ tm) :
    ∃ v, m.getNumBlocksToAllocate p r t hits (loc + ext) tm false = .ok v ∧
      (if Refused p m hits then (p.numGpuBlocks : Int) + 1
        else computedCost p m hits loc ext + newCount m r (computedLen m hits loc ext) t tm) ≤ v := by
  have hbs : 0 < m.blockSize := m.spec.blockSize_pos
  have hreq (t' : Int) (ht' : t ≤ t') (hx : 0 < ext) :
      cdiv (loc + ext) m.blockSize ≤ cdiv t' m.blockSize :=
    cdiv_mono (((htot hx).trans htm).trans ht') hbs
  have hplain (hkind : m.spec.kind.isMamba = false) : ¬ Refused p m hits := by
    rintro ⟨h, -⟩
    rw [hkind] at h
    cases h
  unfold getNumBlocksToAllocate
  cases hkind : m.spec.kind with
  | mamba mode n =>
    simp only
    by_cases hthis : m.hitsThisStep p hits = true
    · rw [if_pos hthis, if_pos ⟨by simp [hkind, SpecKind.isMamba], hthis⟩]
      exact ⟨_, rfl, le_rfl⟩
    rw [if_neg hthis, if_neg (fun h : Refused p m hits => hthis h.2)]
    by_cases hmode : mode = .align
    · subst hmode
      exact ⟨_, rfl, alignPredict_idle hidle hkind hfit hcall htot⟩
    rw [if_pos hmode]
    have hn : (0 : Int) ≤ m.blockSize * n := by positivity
    obtain ⟨v, hv, hle⟩ := basePredict_idle (p := p) hidle hk hfit
      (hreq (t + m.blockSize * n) (by omega))
    refine ⟨v, hv, ?_⟩
    simpa only [newCount, hkind] using hle
  | fullAttention _ | slidingWindow _ | chunkedLocal _ =>
    rw [if_neg (hplain (by simp [hkind, SpecKind.isMamba]))]
    obtain ⟨v, hv, hle⟩ := basePredict_idle (p := p) hidle hk hfit (hreq t le_rfl)
    exact ⟨v, hv, by simpa only [newCount, hkind] using hle⟩
  | crossAttention => exact absurd hkind hk

omit [DecidableEq α] in
theorem computedLen_le_of_align (hk : m.spec.kind = .mamba .align n) (h0 : 0 ≤ loc + ext)
    (htot : loc + ext ≤ tm) (hcall : AlignCall m 0 hits ext (loc + ext) tm) :
    computedLen m hits loc ext ≤ cdiv tm m.blockSize := by
  have hhits := hcall.hits n hk
  have hskip := numSkippedBlocks_le_cdiv m h0
  have hmono : cdiv (loc + ext) m.blockSize ≤ cdiv tm m.blockSize :=
    cdiv_mono htot m.spec.blockSize_pos
  simp only [computedLen, externalCount, hk, reduceCtorEq]
  split_ifs <;> omega

omit [DecidableEq α] in
theorem skipped_le_computedLen (hk : m.spec.kind ≠ .crossAttention)
    (hfit : ExternalFits m hits loc ext) :
    (max (m.numSkippedBlocks (loc + ext)) hits.length : Int) ≤ computedLen m hits loc ext := by
  have := externalCount_nonneg hfit
  rw [computedLen, if_neg hk]
  omega

theorem Listed.serving {m1 m2 : Manager α} (h : Listed m m1 r hits loc ext) (hidle : Idle m r)
    (hs : m1.spec = m.spec) (hs2 : m2.spec = m1.spec) (hpl : Placed m1 m2 r t tm)
    (hcross : m.spec.kind = .crossAttention → hits = []) (hfit : ExternalFits m hits loc ext)
    (h0 : 0 ≤ loc + ext) (htot : loc + ext ≤ tm) (hcall : AlignCall m 0 hits ext (loc + ext) tm)
    (ht : m.spec.kind ≠ .crossAttention → tm ≤ t) : Serving m2 r tm := by
  have hbs : m1.blockSize = m.blockSize := congrArg KVCacheSpec.blockSize hs
  refine hpl.serving hs2 (hs ▸ ht) ?_ ?_ ?_ ?_
  · intro idx hidx
    rw [h.last, hidle.last] at hidx
    cases hidx
  · intro _
    rw [h.allocated, h.last]
    exact ⟨hidle.allocated, hidle.last⟩
  · have hc := h.cached
    by_cases hal : ∃ n, m.spec.kind = .mamba .align n
    · obtain ⟨n, hk⟩ := hal
      have hspec : specBlocks m1.spec = n := by simp only [specBlocks, hs, hk]
      have hlen := (hpl.aligned n (hs ▸ hk)).1
      have h1 := computedLen_le_of_align hk h0 htot hcall
      have h2 := skipped_le_computedLen (by rw [hk]; simp) hfit
      rw [hbs] at hlen
      omega
    rw [specBlocks_of_not_align (fun n hk => hal ⟨n, hs ▸ hk⟩)]
    have hg := hpl.grows
    have hlen := h.length
    by_cases hk : m.spec.kind = .crossAttention
    · have hz : m.numSkippedBlocks (loc + ext) = 0 := by
        simp [numSkippedBlocks, KVCacheSpec.getNumSkippedTokens, hk]
      rw [hcross hk] at hc
      simp at hc
      omega
    · have h2 := skipped_le_computedLen hk hfit
      omega
  · intro n hk heq
    have h1 := computedLen_le_of_align (hs ▸ hk) h0 htot hcall
    have hlen := h.length
    rw [hbs] at heq
    exact .inr (by omega)

end predict
end TailBlend.Ownership
