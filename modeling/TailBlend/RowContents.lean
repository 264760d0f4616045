import TailBlend.BatchRecord

/-! What the columns of the batch say about the request at a row. -/
namespace TailBlend.Batch
open Rows Function BlockTable List
variable {ι ε γ : Type}

namespace Request

/-- The positions for which the request has a token id; prompt embeddings have none. -/
def Written (r : Request ι ε γ) (p : Nat) : Prop :=
  r.promptTokenIds.isSome ∨ r.numPromptTokens ≤ p

def allowedTokenIds (r : Request ι ε γ) : List Nat :=
  match r.params with
  | .sampling p => p.allowedTokenIds
  | .pooling _ => []

end Request

namespace BlockTable

structure SameRow (t : BlockTable) (i : Nat) (t' : BlockTable) (j : Nat) : Prop where
  count : t.numBlocksPerRow i = t'.numBlocksPerRow j
  blocks : ∀ p < t.numBlocksPerRow i, t.blockTable i p = t'.blockTable j p

variable (t : BlockTable)

theorem SameRow.refl (i : Nat) : SameRow t i t i := ⟨rfl, fun _ _ => rfl⟩

theorem addRow_row {t t' : BlockTable} (h : t.blocksPerKvBlock = t'.blocksPerKvBlock)
    (ids : List Nat) (i j : Nat) : SameRow (t.addRow ids i) i (t'.addRow ids j) j := by
  have hids : t.mapToKernelBlocks ids = t'.mapToKernelBlocks ids := by
    unfold mapToKernelBlocks
    rw [h]
  unfold addRow appendRow
  by_cases hnil : ids = []
  · rw [if_pos hnil, if_pos hnil]
    constructor
    · simp
    · simp
  rw [if_neg hnil, if_neg hnil]
  have hmap : mapToKernelBlocks { t with
      numBlocksPerRow := update t.numBlocksPerRow i 0 } ids =
      t.mapToKernelBlocks ids := rfl
  have hmap' : mapToKernelBlocks { t' with
      numBlocksPerRow := update t'.numBlocksPerRow j 0 } ids =
      t.mapToKernelBlocks ids := hids.symm
  constructor
  · simp [hmap, hmap']
  · intro p hp
    simp only [hmap', update_self] at hp ⊢
    exact writeSlice_congr _ _ _ (Nat.zero_le p) hp

variable {i k j : Nat} {ts : List BlockTable}

theorem addRow_ne (ids : List Nat) (h : k ≠ i) : SameRow (t.addRow ids i) k t k := by
  unfold addRow appendRow
  split_ifs
  · constructor
    · simp [h]
    · intro p _
      rfl
  constructor
  · simp [h]
  · simp [h]

theorem clearRow_ne (h : k ≠ i) : SameRow (t.clearRow i) k t k := by
  constructor
  · simp [clearRow, h]
  · simp [clearRow, h]

theorem moveRow_tgt (src tgt : Nat) : SameRow (t.moveRow src tgt) tgt t src := by
  constructor
  · simp [moveRow]
  · intro p hp
    simp only [moveRow, copyRow_dst, update_self] at hp ⊢
    exact copyFront_lt _ _ hp

theorem moveRow_ne (src : Nat) {tgt : Nat} (h : k ≠ tgt) : SameRow (t.moveRow src tgt) k t k := by
  constructor
  · simp [moveRow, copyRow_ne _ _ h]
  · simp [moveRow, h]

structure SameRows (ts : List BlockTable) (i : Nat) (ts' : List BlockTable) (j : Nat) : Prop where
  length : ts.length = ts'.length
  row : ∀ (g : Nat) t t', ts[g]? = some t → ts'[g]? = some t' → SameRow t i t' j

theorem SameRows.refl (ts : List BlockTable) (i : Nat) : SameRows ts i ts i := by
  refine ⟨rfl, fun g t t' h h' => ?_⟩
  obtain rfl := Option.some.inj (h.symm.trans h')
  exact SameRow.refl t i

theorem SameRows.trans {ts' ts'' : List BlockTable} (h : SameRows ts i ts' j)
    (h' : SameRows ts' j ts'' k) : SameRows ts i ts'' k := by
  refine ⟨h.length.trans h'.length, fun g t t'' ht ht'' => ?_⟩
  have hlt : g < ts'.length := by
    rw [← h.length]
    exact (List.getElem?_eq_some_iff.mp ht).1
  have h1 := h.row g t _ ht (getElem?_eq_getElem hlt)
  have h2 := h'.row g _ t'' (getElem?_eq_getElem hlt) ht''
  exact ⟨h1.count.trans h2.count, fun p hp =>
    (h1.blocks p hp).trans (h2.blocks p (by rw [← h1.count]; exact hp))⟩

theorem SameRows.map {f : BlockTable → BlockTable} (h : ∀ t, SameRow (f t) i t j) :
    SameRows (ts.map f) i ts j := by
  refine ⟨length_map f, fun g t t' ht ht' => ?_⟩
  rw [getElem?_map, ht'] at ht
  cases ht
  exact h t'

theorem SameRows.mapIdx {f : Nat → BlockTable → BlockTable} (h : ∀ g t, SameRow (f g t) i t j) :
    SameRows (ts.mapIdx f) i ts j := by
  refine ⟨length_mapIdx, fun g t t' ht ht' => ?_⟩
  rw [getElem?_mapIdx, ht'] at ht
  cases ht
  exact h g t'

end BlockTable

namespace InputBatch

def masked (s : InputBatch ι ε γ) (i t : Nat) : Bool :=
  (s.allowedTokenIdsMask.map (fun m => m i t)).getD false

def sampling (s : InputBatch ι ε γ) (i : Nat) : ℚ × ℚ × Int × ℚ × ℚ × ℚ :=
  (s.temperature i, s.topP i, s.topK i, s.frequencyPenalties i, s.presencePenalties i,
    s.repetitionPenalties i)

/-- The tokens and the blocks at row `i` of one batch and at row `j` of another are the same; the
token ids count at the positions `W`. -/
structure SameTokens (W : Nat → Prop) (s : InputBatch ι ε γ) (i : Nat) (s' : InputBatch ι ε γ)
    (j : Nat) : Prop where
  numTokens : s.numTokensNoSpec i = s'.numTokensNoSpec j
  numPrompt : s.numPromptTokens i = s'.numPromptTokens j
  numComputed : s.numComputedTokens i = s'.numComputedTokens j
  tokens : ∀ p < s.numTokensNoSpec i, W p → s.tokenIds i p = s'.tokenIds j p
  isTokens : ∀ p < s.numTokensNoSpec i, s.isTokenIds i p = s'.isTokenIds j p
  embeds : s.reqPromptEmbeds i = s'.reqPromptEmbeds j
  blocks : BlockTable.SameRows s.blockTables i s'.blockTables j

structure SameRow (W : Nat → Prop) (s : InputBatch ι ε γ) (i : Nat) (s' : InputBatch ι ε γ)
    (j : Nat) : Prop extends SameTokens W s i s' j where
  config : s.config = s'.config
  lora : s.requestLoraMapping i = s'.requestLoraMapping j
  params : s.config.isPoolingModel = false → s.sampling i = s'.sampling j
  generator : s.generators i = s'.generators j
  badWords : s.badWordsTokenIds i = s'.badWordsTokenIds j
  mask : ∀ t < s.config.vocabSize, s.masked i t = s'.masked j t
  needs : s.logitsProcessingNeedsTokenIds i = s'.logitsProcessingNeedsTokenIds j

variable {s s' : InputBatch ι ε γ} {i j k : Nat} {r : Request ι ε γ}

theorem SameRow.trans {W : Nat → Prop} {s'' : InputBatch ι ε γ} (h : SameRow W s i s' j)
    (h' : SameRow W s' j s'' k) : SameRow W s i s'' k where
  config := h.config.trans h'.config
  numTokens := h.numTokens.trans h'.numTokens
  numPrompt := h.numPrompt.trans h'.numPrompt
  numComputed := h.numComputed.trans h'.numComputed
  tokens p hp hw := (h.tokens p hp hw).trans (h'.tokens p (by rw [← h.numTokens]; exact hp) hw)
  isTokens p hp := (h.isTokens p hp).trans (h'.isTokens p (by rw [← h.numTokens]; exact hp))
  embeds := h.embeds.trans h'.embeds
  blocks := h.blocks.trans h'.blocks
  lora := h.lora.trans h'.lora
  params hp := (h.params hp).trans (h'.params (by rw [← h.config]; exact hp))
  generator := h.generator.trans h'.generator
  badWords := h.badWords.trans h'.badWords
  mask t ht := (h.mask t ht).trans (h'.mask t (by rw [← h.config]; exact ht))
  needs := h.needs.trans h'.needs

/-! The calls on a row -/

/-- Nothing of an earlier request is left at the row where `r` does not write itself. -/
structure Clean (s : InputBatch ι ε γ) (i : Nat) (r : Request ι ε γ) : Prop where
  embeds : r.promptEmbeds.isSome ∨ s.reqPromptEmbeds i = none
  generator : s.generators i = none
  badWords : s.badWordsTokenIds i = none
  mask : r.allowedTokenIds ≠ [] ∨ ∀ t < s.config.vocabSize, s.masked i t = false
  needs : r.params.isPooling = true ∨ s.logitsProcessingNeedsTokenIds i = false

/-- The kernel blocks per block of each group. -/
abbrev blockRatios (s : InputBatch ι ε γ) : List Nat :=
  s.blockTables.map (fun t => t.blocksPerKvBlock)

theorem setTokens_row (hmask : r.isTokenIds.length = r.numPromptTokens)
    (htables : s.blockRatios = s'.blockRatios)
    (h : r.promptEmbeds.isSome ∨ s.reqPromptEmbeds i = none)
    (h' : r.promptEmbeds.isSome ∨ s'.reqPromptEmbeds j = none) :
    SameTokens r.Written (s.setTokens i r) i (s'.setTokens j r) j := by
  refine ⟨?_, ?_, ?_, fun p hp hw => ?_, fun p hp => ?_, ?_, ?_⟩
  · simp [setTokens]
  · simp [setTokens]
  · simp [setTokens]
  · simp only [setTokens, update_self] at hp ⊢
    by_cases hn : r.numPromptTokens ≤ p
    · exact writeSlice_congr _ _ _ hn hp
    have hlt : p < r.numPromptTokens := by omega
    rw [writeSlice_lt _ _ hlt, writeSlice_lt _ _ hlt]
    cases hids : r.promptTokenIds with
    | none =>
      rw [Request.Written, hids] at hw
      exact absurd hw (by simpa using hn)
    | some ids =>
      refine writeSlice_congr _ _ _ (Nat.zero_le p) ?_
      rw [Request.numPromptTokens, hids] at hn
      simp only at hn
      omega
  · simp only [setTokens, update_self] at hp ⊢
    by_cases hn : r.numPromptTokens ≤ p
    · refine writeSlice_congr _ _ _ hn ?_
      rw [length_replicate]
      exact hp
    have hlt : p < r.numPromptTokens := by omega
    rw [writeSlice_lt _ _ hlt, writeSlice_lt _ _ hlt]
    refine writeSlice_congr _ _ _ (Nat.zero_le p) ?_
    omega
  · simp only [setTokens]
    cases hemb : r.promptEmbeds with
    | none =>
      rw [hemb] at h h'
      simp only
      rw [h.resolve_left (by simp), h'.resolve_left (by simp)]
    | some embeds => simp
  · simp only [setTokens]
    have hlen := congrArg length htables
    refine ⟨by simpa using hlen, fun g t t' ht ht' => ?_⟩
    rw [getElem?_mapIdx, Option.map_eq_some_iff] at ht ht'
    obtain ⟨u, hu, rfl⟩ := ht
    obtain ⟨u', hu', rfl⟩ := ht'
    refine addRow_row ?_ _ i j
    have := congrArg (fun l => l[g]?) htables
    simpa [hu, hu'] using this

theorem setRow_row (hsuits : r.Suits s.config) (hconfig : s.config = s'.config)
    (htables : s.blockRatios = s'.blockRatios) (h : Clean s i r) (h' : Clean s' j r) :
    SameRow r.Written (s.setRow i r) i (s'.setRow j r) j := by
  obtain ⟨h1, h2, h3, h4, h5, h6, h7⟩ := setTokens_row hsuits.2 htables h.embeds h'.embeds
  cases hp : r.params with
  | sampling p =>
    have hallowed : r.allowedTokenIds = p.allowedTokenIds := by rw [Request.allowedTokenIds, hp]
    have hpool : ¬ r.params.isPooling = true := by
      rw [hp]
      exact Bool.false_ne_true
    unfold setRow
    simp only [hp]
    refine ⟨⟨h1, h2, h3, h4, h5, h6, h7⟩, hconfig, ?_, fun _ => ?_, ?_, ?_, fun t ht => ?_, ?_⟩
    · simp
    · have hvocab : (s.setTokens i r).config.vocabSize = (s'.setTokens j r).config.vocabSize :=
        congrArg Config.vocabSize hconfig
      simp [sampling, setSampling, hvocab]
    · simp only [setSampling]
      cases r.generator with
      | none => exact h.generator.trans h'.generator.symm
      | some g => simp
    · simp only [setSampling]
      split_ifs
      · exact h.badWords.trans h'.badWords.symm
      · simp
    · have hm := h.mask
      have hm' := h'.mask
      rw [hallowed] at hm hm'
      by_cases hnil : p.allowedTokenIds = []
      · have e1 : masked (setSampling (s.setTokens i r) i r.generator p) i t = s.masked i t := by
          simp [masked, setSampling, hnil, setTokens]
        have e2 : masked (setSampling (s'.setTokens j r) j r.generator p) j t = s'.masked j t := by
          simp [masked, setSampling, hnil, setTokens]
        refine e1.trans (Eq.trans ?_ e2.symm)
        rw [hm.resolve_left (by simp [hnil]) t ht,
          hm'.resolve_left (by simp [hnil]) t (by rw [← hconfig]; exact ht)]
      · simp [masked, setSampling, hnil]
    · exact (h.needs.resolve_left hpool).trans (h'.needs.resolve_left hpool).symm
  | pooling requiresTokenIds =>
    have hallowed : r.allowedTokenIds = [] := by rw [Request.allowedTokenIds, hp]
    have hkind : s.config.isPoolingModel = true := by
      rw [← hsuits.1, hp]
      rfl
    unfold setRow
    simp only [hp]
    refine ⟨⟨h1, h2, h3, h4, h5, h6, h7⟩, hconfig, ?_, fun hfalse => ?_, ?_, ?_, fun t ht => ?_, ?_⟩
    · simp
    · exact absurd (hkind.symm.trans hfalse) (by simp)
    · exact h.generator.trans h'.generator.symm
    · exact h.badWords.trans h'.badWords.symm
    · exact (h.mask.resolve_left (by simp [hallowed]) t ht).trans
        (h'.mask.resolve_left (by simp [hallowed]) t (by rw [← hconfig]; exact ht)).symm
    · simp

variable (W : Nat → Prop)

theorem setTokens_ne (s : InputBatch ι ε γ) (r : Request ι ε γ) (h : k ≠ i) :
    SameTokens W (s.setTokens i r) k s k := by
  refine ⟨?_, ?_, ?_, fun p _ _ => ?_, fun p _ => ?_, ?_, ?_⟩
  · simp [setTokens, h]
  · simp [setTokens, h]
  · simp [setTokens, h]
  · simp [setTokens, h]
  · simp [setTokens, h]
  · simp only [setTokens]
    cases r.promptEmbeds with
    | none => rfl
    | some embeds => exact update_of_ne h ..
  · exact SameRows.mapIdx fun g t => t.addRow_ne _ h

theorem setRow_ne (s : InputBatch ι ε γ) (r : Request ι ε γ) (h : k ≠ i) :
    SameRow W (s.setRow i r) k s k := by
  obtain ⟨h1, h2, h3, h4, h5, h6, h7⟩ := s.setTokens_ne W r h
  unfold setRow
  cases r.params with
  | sampling p =>
    refine ⟨⟨h1, h2, h3, h4, h5, h6, h7⟩, rfl, ?_, fun _ => ?_, ?_, ?_, fun t _ => ?_, rfl⟩
    · simp [h, setSampling, setTokens]
    · simp [sampling, h, setSampling, setTokens]
    · cases r.generator with
      | none => rfl
      | some g => exact update_of_ne h ..
    · simp only [setSampling]
      split_ifs
      · rfl
      · rw [update_of_ne h]
        rfl
    · simp only [masked, setSampling]
      split_ifs
      · rfl
      · simp only [Option.map_some, update_of_ne h]
        cases hm : s.allowedTokenIdsMask <;> simp [setTokens, hm]
  | pooling requiresTokenIds =>
    refine ⟨⟨h1, h2, h3, h4, h5, h6, h7⟩, rfl, ?_, fun _ => rfl, rfl, rfl, fun t _ => rfl, ?_⟩
    · simp [h, setTokens]
    · simp [h, setTokens]

theorem clearRow_ne (s : InputBatch ι ε γ) (h : k ≠ i) : SameRow W (s.clearRow i) k s k := by
  have hblocks : BlockTable.SameRows (s.blockTables.map (fun t => t.clearRow i)) k
      s.blockTables k := SameRows.map fun t => t.clearRow_ne h
  unfold clearRow
  simp only
  split_ifs
  · refine ⟨⟨rfl, rfl, rfl, fun _ _ _ => rfl, fun _ _ => rfl, rfl, hblocks⟩, rfl, ?_,
      fun _ => rfl, rfl, rfl, fun t _ => rfl, rfl⟩
    simp [h]
  refine ⟨⟨rfl, rfl, rfl, fun _ _ _ => rfl, fun _ _ => rfl, rfl, hblocks⟩, rfl, ?_,
    fun _ => rfl, ?_, ?_, fun t _ => ?_, rfl⟩
  · simp [h]
  · simp [h]
  · simp [h]
  · cases hm : s.allowedTokenIdsMask <;> simp [masked, hm, h]

/-- What a move needs: nothing is left at the row where the request does not bring its own. -/
structure Movable (s : InputBatch ι ε γ) (last dst : Nat) : Prop where
  embeds : s.reqPromptEmbeds dst = none ∨ (s.reqPromptEmbeds last).isSome
  generator : s.generators dst = none
  badWords : s.badWordsTokenIds dst = none
  needs : s.logitsProcessingNeedsTokenIds dst = s.logitsProcessingNeedsTokenIds last
  pooling : s.config.isPoolingModel = true → s.generators last = none ∧
    s.badWordsTokenIds last = none ∧ s.allowedTokenIdsMask = none

theorem moveColumns_dst {last dst : Nat} (hne : last ≠ dst)
    (h : Movable s last dst) : SameRow W (s.moveColumns last dst) dst s last := by
  have hactive : s.numTokensNoSpec last ≤ s.activeTokenCount last := Nat.le_add_right ..
  have htokens : SameTokens W { s with
      tokenIds := update s.tokenIds dst
        (copyFront (s.tokenIds dst) (s.tokenIds last) (s.activeTokenCount last))
      isTokenIds := update s.isTokenIds dst
        (copyFront (s.isTokenIds dst) (s.isTokenIds last) (s.activeTokenCount last))
      reqPromptEmbeds := moveEntry s.reqPromptEmbeds last dst
      numTokensNoSpec := copyRow s.numTokensNoSpec last dst
      numPromptTokens := copyRow s.numPromptTokens last dst
      numComputedTokens := copyRow s.numComputedTokens last dst
      blockTables := s.blockTables.map (fun t => t.moveRow last dst) } dst s last := by
    refine ⟨copyRow_dst .., copyRow_dst .., copyRow_dst .., fun p hp _ => ?_, fun p hp => ?_,
      moveEntry_dst hne h.embeds, SameRows.map fun t => t.moveRow_tgt last dst⟩
    all_goals
      simp only [copyRow_dst, update_self] at hp ⊢
      exact copyFront_lt _ _ (by omega)
  obtain ⟨h1, h2, h3, h4, h5, h6, h7⟩ := htokens
  unfold moveColumns
  simp only
  split_ifs with hpool
  · obtain ⟨hg, hb, hm⟩ := h.pooling hpool
    refine ⟨⟨h1, h2, h3, h4, h5, h6, h7⟩, rfl, copyRow_dst .., fun hfalse => ?_,
      h.generator.trans hg.symm, h.badWords.trans hb.symm, fun t _ => ?_, h.needs⟩
    · exact absurd (hpool.symm.trans hfalse) (by simp)
    · simp [masked, hm]
  · refine ⟨⟨h1, h2, h3, h4, h5, h6, h7⟩, rfl, copyRow_dst .., fun _ => ?_,
      moveEntry_dst hne (.inl h.generator), moveEntry_dst hne (.inl h.badWords), fun t _ => ?_,
      h.needs⟩
    · simp [sampling]
    · cases hm : s.allowedTokenIdsMask <;> simp [masked, hm]

theorem moveColumns_ne (s : InputBatch ι ε γ) {last dst : Nat} (h1 : k ≠ last)
    (h2 : k ≠ dst) : SameRow W (s.moveColumns last dst) k s k := by
  have hblocks : BlockTable.SameRows (s.blockTables.map (fun t => t.moveRow last dst)) k
      s.blockTables k := SameRows.map fun t => t.moveRow_ne last h2
  unfold moveColumns
  simp only
  split_ifs
  · refine ⟨⟨copyRow_ne _ _ h2, copyRow_ne _ _ h2, copyRow_ne _ _ h2, fun p _ _ => ?_,
      fun p _ => ?_, moveEntry_ne h1 h2, hblocks⟩, rfl, copyRow_ne _ _ h2, fun _ => rfl, rfl, rfl,
      fun t _ => rfl, rfl⟩
    · simp [h2]
    · simp [h2]
  refine ⟨⟨copyRow_ne _ _ h2, copyRow_ne _ _ h2, copyRow_ne _ _ h2, fun p _ _ => ?_,
    fun p _ => ?_, moveEntry_ne h1 h2, hblocks⟩, rfl, copyRow_ne _ _ h2, fun _ => ?_,
    moveEntry_ne h1 h2, moveEntry_ne h1 h2, fun t _ => ?_, rfl⟩
  · simp [h2]
  · simp [h2]
  · simp [sampling, copyRow_ne _ _ h2]
  · cases hm : s.allowedTokenIdsMask <;> simp [masked, hm, copyRow_ne _ _ h2]

/-- What an exchange needs: the columns that it does not exchange are the same at the two rows. -/
structure Exchangeable (s : InputBatch ι ε γ) (i j : Nat) : Prop where
  mask : ∀ t < s.config.vocabSize, s.masked i t = s.masked j t
  needs : s.logitsProcessingNeedsTokenIds i = s.logitsProcessingNeedsTokenIds j
  pooling : s.config.isPoolingModel = true →
    (∀ k, s.generators k = none) ∧ ∀ k, s.badWordsTokenIds k = none

theorem apply_swap {α : Type} {f : Nat → α} (h : f i = f j) (k : Nat) :
    f k = f (Equiv.swap i j k) := by
  have := congrFun (swapRows_eq_self h) k
  exact this.symm

theorem swapColumns_row (h : Exchangeable s i j) (k : Nat) :
    SameRow W (s.swapColumns i j) k s (Equiv.swap i j k) := by
  have hactive (k : Nat) (hk : k = i ∨ k = j) :
      s.numTokensNoSpec k ≤ max (s.activeTokenCount i) (s.activeTokenCount j) := by
    have hle : s.numTokensNoSpec k ≤ s.activeTokenCount k := Nat.le_add_right ..
    rcases hk with rfl | rfl
    · exact hle.trans (le_max_left ..)
    · exact hle.trans (le_max_right ..)
  have hfront {α : Type} (f : Nat → Nat → α) (p : Nat)
      (hp : p < s.numTokensNoSpec (Equiv.swap i j k)) :
      swapFront f i j (max (s.activeTokenCount i) (s.activeTokenCount j)) k p =
        f (Equiv.swap i j k) p := by
    unfold swapFront
    by_cases hk : k = i ∨ k = j
    · refine if_pos (hp.trans_le (hactive _ ?_))
      rcases hk with rfl | rfl
      · exact .inr (Equiv.swap_apply_left ..)
      · exact .inl (Equiv.swap_apply_right ..)
    · rw [not_or] at hk
      rw [Equiv.swap_apply_of_ne_of_ne hk.1 hk.2, ite_self]
  have hmask (m : Nat → Nat → Bool) (t : Nat) (hij : m i t = m j t) :
      copyRow (copyRow m j i) i j k t = m (Equiv.swap i j k) t := by
    rw [← apply_swap (f := fun k => m k t) hij k]
    by_cases hk : k = j
    · rw [hk, copyRow_dst, copyRow_dst]
    rw [copyRow_ne _ _ hk]
    by_cases hk' : k = i
    · rw [hk', copyRow_dst, hij]
    · rw [copyRow_ne _ _ hk']
  have hblocks : BlockTable.SameRows (s.blockTables.map (fun t => t.swapRow i j)) k s.blockTables
      (Equiv.swap i j k) := SameRows.map fun t => ⟨rfl, fun _ _ => rfl⟩
  unfold swapColumns
  simp only
  split_ifs with hpool
  · obtain ⟨hg, hb⟩ := h.pooling hpool
    refine ⟨⟨rfl, rfl, rfl, fun p hp _ => hfront _ p hp, fun p hp => hfront _ p hp, rfl, hblocks⟩,
      rfl, rfl, fun hfalse => ?_, (hg k).trans (hg _).symm, (hb k).trans (hb _).symm, fun t ht => ?_,
      apply_swap h.needs k⟩
    · exact absurd (hpool.symm.trans hfalse) (by simp)
    · exact apply_swap (f := fun k => s.masked k t) (h.mask t ht) k
  refine ⟨⟨rfl, rfl, rfl, fun p hp _ => hfront _ p hp, fun p hp => hfront _ p hp, rfl, hblocks⟩,
    rfl, rfl, fun _ => rfl, rfl, rfl, fun t ht => ?_, apply_swap h.needs k⟩
  have hij := h.mask t ht
  cases hm : s.allowedTokenIdsMask with
  | none => simp [masked, hm]
  | some m =>
    simp only [masked, hm] at hij ⊢
    exact hmask m t hij

end InputBatch
end TailBlend.Batch
