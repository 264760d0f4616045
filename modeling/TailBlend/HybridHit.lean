import TailBlend.CacheHitLength

/-! The hits of all attention groups of a hybrid model agree on one length. -/
namespace TailBlend.CacheHit
open BlockPool List

/-- `rows` hold the blocks of the first `c` tokens, with all that the attention reads. -/
structure Covers (p : BlockPool) (g : AttentionGroup) (c : Nat) (rows : Rows) : Prop where
  le : c ≤ rows.length * g.spec.blockSize
  needed : ∀ j, j < rows.length →
    Needs g.spec.kind g.spec.blockSize (rows.length * g.spec.blockSize) j →
      CachedAt p g.groupIds rows j

variable {p : BlockPool} {g : AttentionGroup} {specs : List KVCacheSpec} {eagle : List Nat}
  {blockHashes : List BlockHash} {gs : List AttentionGroup} {spec : KVCacheSpec}

theorem Covers.mono {c c' : Nat} {rows : Rows} (h : Covers p g c rows) (hc : c' ≤ c) :
    Covers p g c' rows :=
  ⟨hc.trans h.le, h.needed⟩

/-- A group whose search returns and never lengthens the candidate: Mamba does not drop the
block that EAGLE adds, which is harmless only when the alignment removes it. -/
structure GroupReady (p : BlockPool) (blockHashes : List BlockHash) (maxLen lcm : Nat)
    (g : AttentionGroup) : Prop where
  searchable : Searchable g.spec
  dvd : g.spec.blockSize ∣ lcm
  hashes : maxLen / g.spec.blockSize ≤
    (hashesAt blockHashes p.hashBlockSize g.spec.blockSize).length
  keeps : g.isEagle = true → g.spec.kind.isMamba = true → g.spec.blockSize ≠ lcm

def Searched (s : HitState) (e : AttentionGroup × Nat) : Prop :=
  ¬(e.1.spec.kind.isFullAttention = true ∧ (s.hitRows e.2).isSome = true)

section pass
variable {p : BlockPool} {blockHashes : List BlockHash} {maxLen lcm : Nat}

/-- A candidate length: the limit itself or a multiple of the alignment. -/
def Candidate (maxLen lcm c : Nat) : Prop := c ≤ maxLen ∧ (c = maxLen ∨ lcm ∣ c)

variable {e : AttentionGroup × Nat} {groups : List AttentionGroup}

theorem passGroup_search {s : HitState} (hlcm : 0 < lcm)
    (hg : GroupReady p blockHashes maxLen lcm e.1) (hc : Candidate maxLen lcm s.currHitLength)
    (hs : Searched s e) :
    ∃ s' rows, passGroup p blockHashes maxLen lcm s e = .ok s' ∧
      s'.hitRows = Function.update s.hitRows e.2 (some rows) ∧
      rows.length * e.1.spec.blockSize = s'.currHitLength ∧
      s'.currHitLength ≤ s.currHitLength ∧ lcm ∣ s'.currHitLength ∧
      Covers p e.1 s'.currHitLength rows := by
  obtain ⟨g, idx⟩ := e
  simp only [Searched] at hs hg ⊢
  set useEagle := g.isEagle && decide (idx ∉ s.eagleVerified) with huse
  set maxLength := if useEagle then min (s.currHitLength + g.spec.blockSize) maxLen
    else s.currHitLength with hmax
  have hle : maxLength ≤ maxLen := by
    rw [hmax]
    split
    · exact Nat.min_le_right _ _
    · exact hc.1
  obtain ⟨rows, hrows, hit⟩ := findLongestCacheHit_hit p g.groupIds useEagle lcm hg.searchable
    ((Nat.div_le_div_right hle).trans hg.hashes)
  -- the block that EAGLE adds is dropped again, or removed by the alignment
  have hshort : rows.length * g.spec.blockSize ≤ s.currHitLength := by
    by_cases hu : useEagle = true
    · rw [if_pos hu] at hmax
      cases hm : g.spec.kind.isMamba with
      | false =>
        rcases hit.eagle hu hm with hnil | hdrop
        · simp [hnil]
        · rw [Nat.add_mul] at hdrop
          omega
      | true =>
        have he : g.isEagle = true := by
          rw [Bool.and_eq_true] at hu
          exact hu.1
        have hlt : g.spec.blockSize < lcm :=
          lt_of_le_of_ne (Nat.le_of_dvd hlcm hg.dvd) (hg.keeps he hm)
        have hrl := hit.le
        rcases hc.2 with heq | ⟨k, hk⟩
        · omega
        obtain ⟨n, hn⟩ := hit.aligned
        have hlt' : lcm * n < lcm * (k + 1) := by
          rw [Nat.mul_add]
          omega
        have := Nat.lt_of_mul_lt_mul_left hlt'
        rw [hn, hk]
        exact Nat.mul_le_mul_left lcm (by omega)
    · rw [if_neg hu] at hmax
      exact hmax ▸ hit.le
  have hstep : passGroup p blockHashes maxLen lcm s (g, idx) = .ok {
      currHitLength := rows.length * g.spec.blockSize
      eagleVerified := if useEagle then idx :: s.eagleVerified
        else if rows.length * g.spec.blockSize < s.currHitLength then [] else s.eagleVerified
      hitRows := Function.update s.hitRows idx (some rows) } := by
    unfold passGroup
    simp only
    rw [if_neg hs, hrows]
    rfl
  exact ⟨_, rows, hstep, rfl, rfl, hshort, hit.aligned, ⟨le_rfl, hit.needed⟩⟩

theorem passGroup_trim (p : BlockPool) (blockHashes : List BlockHash) (maxLen : Nat) {s : HitState}
    (hdvd : e.1.spec.blockSize ∣ lcm) (hc : lcm ∣ s.currHitLength) (hs : ¬ Searched s e) :
    passGroup p blockHashes maxLen lcm s e = .ok s := by
  unfold passGroup
  simp only
  rw [if_pos (not_not.mp hs), Nat.div_mul_cancel (hdvd.trans hc)]

structure PassOK (p : BlockPool) (lcm : Nat) (es : List (AttentionGroup × Nat))
    (s s' : HitState) : Prop where
  le : s'.currHitLength ≤ s.currHitLength
  rest : ∀ idx, idx ∉ es.map (fun e => e.2) → s'.hitRows idx = s.hitRows idx
  covers : ∀ e ∈ es, ∃ rows, s'.hitRows e.2 = some rows ∧ Covers p e.1 s'.currHitLength rows ∧
    (Searched s e → rows.length * e.1.spec.blockSize ≤ s.currHitLength)
  last : ∀ e, es.getLast? = some e → Searched s e → ∀ rows, s'.hitRows e.2 = some rows →
    rows.length * e.1.spec.blockSize = s'.currHitLength
  aligned : es ≠ [] → lcm ∣ s'.currHitLength

theorem foldlM_passGroup (hlcm : 0 < lcm) (es : List (AttentionGroup × Nat)) (s : HitState)
    (hready : ∀ e ∈ es, GroupReady p blockHashes maxLen lcm e.1)
    (hnodup : (es.map (fun e => e.2)).Nodup) (hc : Candidate maxLen lcm s.currHitLength)
    (hold : ∀ e ∈ es, ¬ Searched s e → lcm ∣ s.currHitLength ∧
      ∀ rows, s.hitRows e.2 = some rows → Covers p e.1 s.currHitLength rows) :
    ∃ s', es.foldlM (passGroup p blockHashes maxLen lcm) s = .ok s' ∧ PassOK p lcm es s s' := by
  induction es generalizing s with
  | nil => exact ⟨s, rfl, le_rfl, fun _ _ => rfl, by simp, by simp, by simp⟩
  | cons e es ih =>
    rw [map_cons, nodup_cons] at hnodup
    have hne (e' : AttentionGroup × Nat) (he' : e' ∈ es) : e'.2 ≠ e.2 := fun heq =>
      hnodup.1 (heq ▸ mem_map_of_mem he')
    by_cases hs : Searched s e
    · obtain ⟨s1, rows, hstep, hrows, hlen, hle, hdvd, hcov⟩ :=
        passGroup_search hlcm (hready e (by simp)) hc hs
      have hsame (e' : AttentionGroup × Nat) (he' : e' ∈ es) :
          s1.hitRows e'.2 = s.hitRows e'.2 := by
        rw [hrows, Function.update_of_ne (hne e' he')]
      have hsearched (e' : AttentionGroup × Nat) (he' : e' ∈ es) :
          Searched s1 e' ↔ Searched s e' := by
        rw [Searched, Searched, hsame e' he']
      obtain ⟨s', hrun, hok⟩ := ih s1 (fun e' he' => hready e' (by simp [he'])) hnodup.2
        ⟨hle.trans hc.1, .inr hdvd⟩ (fun e' he' hn => ⟨hdvd, fun rows' hr => by
          rw [hsearched e' he'] at hn
          rw [hsame e' he'] at hr
          exact ((hold e' (by simp [he']) hn).2 rows' hr).mono hle⟩)
      have hself : s'.hitRows e.2 = some rows := by
        rw [hok.rest e.2 hnodup.1, hrows, Function.update_self]
      refine ⟨s', ?_, hok.le.trans hle, ?_, ?_, ?_, ?_⟩
      · rw [foldlM_cons, hstep]
        exact hrun
      · intro idx hidx
        rw [map_cons, mem_cons, not_or] at hidx
        rw [hok.rest idx hidx.2, hrows, Function.update_of_ne hidx.1]
      · intro e' he'
        rcases mem_cons.mp he' with rfl | he'
        · exact ⟨rows, hself, hcov.mono hok.le, fun _ => hlen ▸ hle⟩
        · obtain ⟨rows', hr, hcov', hle'⟩ := hok.covers e' he'
          exact ⟨rows', hr, hcov', fun h => (hle' ((hsearched e' he').mpr h)).trans hle⟩
      · intro e' hlast hs' rows' hr
        cases es with
        | nil =>
          obtain rfl : e = e' := by simpa using hlast
          rw [hself] at hr
          cases hr
          cases hrun
          exact hlen
        | cons e2 es2 =>
          rw [getLast?_cons_cons] at hlast
          have hmem := mem_of_getLast? hlast
          exact hok.last e' hlast ((hsearched e' hmem).mpr hs') rows' hr
      · intro _
        cases es with
        | nil =>
          cases hrun
          exact hdvd
        | cons e2 es2 => exact hok.aligned (by simp)
    · obtain ⟨hdvd, hcov⟩ := hold e (by simp) hs
      have hstep := passGroup_trim p blockHashes maxLen (hready e (by simp)).dvd hdvd hs
      obtain ⟨s', hrun, hok⟩ := ih s (fun e' he' => hready e' (by simp [he'])) hnodup.2 hc
        (fun e' he' => hold e' (by simp [he']))
      refine ⟨s', ?_, hok.le, ?_, ?_, ?_, ?_⟩
      · rw [foldlM_cons, hstep]
        exact hrun
      · intro idx hidx
        rw [map_cons, mem_cons, not_or] at hidx
        exact hok.rest idx hidx.2
      · intro e' he'
        rcases mem_cons.mp he' with rfl | he'
        · obtain ⟨rows, hr⟩ := Option.isSome_iff_exists.mp (not_not.mp hs).2
          exact ⟨rows, (hok.rest e'.2 hnodup.1).trans hr, (hcov rows hr).mono hok.le,
            fun h => absurd h hs⟩
        · exact hok.covers e' he'
      · intro e' hlast hs' rows' hr
        cases es with
        | nil =>
          obtain rfl : e = e' := by simpa using hlast
          exact absurd hs' hs
        | cons e2 es2 => exact hok.last e' hlast hs' rows' hr
      · intro _
        cases es with
        | nil =>
          cases hrun
          exact hdvd
        | cons e2 es2 => exact hok.aligned (by simp)

/-- Only the first attention group is full attention, or the search stops after one pass. -/
def OneFull (groups : List AttentionGroup) : Prop :=
  groups.length = 2 ∨ ∀ g ∈ groups.tail, g.spec.kind.isFullAttention = false

def FullFirst (groups : List AttentionGroup) : Prop :=
  ∀ g ∈ groups, g.spec.kind.isFullAttention = true →
    ∀ g₀, groups.head? = some g₀ → g₀.spec.kind.isFullAttention = true

theorem isSimpleHybrid_of_full (hone : OneFull groups) (hfirst : FullFirst groups) {idx : Nat}
    {g : AttentionGroup} (hg : groups[idx]? = some g) (hidx : idx ≠ 0)
    (hf : g.spec.kind.isFullAttention = true) : isSimpleHybrid groups = true := by
  cases groups with
  | nil => simp at hg
  | cons g0 gs =>
    obtain ⟨k, rfl⟩ := Nat.exists_eq_succ_of_ne_zero hidx
    have hmem : g ∈ gs := mem_of_getElem? hg
    rcases hone with hlen | htail
    · have := hfirst g (by simp [hmem]) hf g0 rfl
      simp [isSimpleHybrid, hlen, this]
    · rw [htail g hmem] at hf
      cases hf

structure Entering (p : BlockPool) (maxLen lcm : Nat) (groups : List AttentionGroup)
    (hitLength : Nat) (s : HitState) : Prop where
  candidate : Candidate maxLen lcm hitLength
  looked : ∀ (idx : Nat) g, groups[idx]? = some g → ¬ Searched s (g, idx) → lcm ∣ hitLength ∧
    ∀ rows, s.hitRows idx = some rows → Covers p g hitLength rows

/-- The state with which the loop ends: only a second full-attention group may hold more
than `L` tokens, besides the first one, which is cut afterwards. -/
structure Agreed (p : BlockPool) (groups : List AttentionGroup) (L : Nat) (s : HitState) :
    Prop where
  covers : ∀ (idx : Nat) g, groups[idx]? = some g → ∃ rows, s.hitRows idx = some rows ∧
    Covers p g L rows ∧ (OneFull groups → idx ≠ 0 ∨ g.spec.kind.isFullAttention = false →
      rows.length * g.spec.blockSize = L)

theorem fixedPoint_ok (hlcm : 0 < lcm)
    (hready : ∀ g ∈ groups, GroupReady p blockHashes maxLen lcm g) (hfirst : FullFirst groups)
    {fuel hitLength : Nat} (hfuel : hitLength < fuel) (s : HitState)
    (hs : Entering p maxLen lcm groups hitLength s)
    (hsimple : isSimpleHybrid groups = true → ∀ idx, s.hitRows idx = none) :
    ∃ L s', fixedPoint p blockHashes maxLen lcm groups fuel hitLength s = .ok (some (L, s')) ∧
      L ≤ hitLength ∧ (groups ≠ [] → lcm ∣ L) ∧ Agreed p groups L s' := by
  induction fuel generalizing hitLength s with
  | zero => omega
  | succ fuel ih =>
    have hmem (g : AttentionGroup) (idx : Nat) :
        (g, idx) ∈ groups.zipIdx ↔ groups[idx]? = some g := mem_zipIdx_iff_getElem?
    obtain ⟨s1, hpass, hok⟩ := foldlM_passGroup hlcm groups.zipIdx
      { s with currHitLength := hitLength }
      (fun e he => hready e.1 (fst_mem_of_mem_zipIdx he))
      (by rw [zipIdx_map_snd]; exact nodup_range' _)
      hs.candidate (fun e he => hs.looked e.2 e.1 ((hmem e.1 e.2).mp he))
    have hcov (idx : Nat) (g : AttentionGroup) (hg : groups[idx]? = some g) :=
      hok.covers (g, idx) ((hmem g idx).mpr hg)
    have hle : s1.currHitLength ≤ hitLength := hok.le
    have hal (hne : groups ≠ []) : lcm ∣ s1.currHitLength :=
      hok.aligned (by simpa [zipIdx_eq_nil_iff] using hne)
    have hunfold : fixedPoint p blockHashes maxLen lcm groups (fuel + 1) hitLength s =
        if s1.currHitLength ≥ hitLength then .ok (some (hitLength, s1))
        else if isSimpleHybrid groups then .ok (some (s1.currHitLength, s1))
        else fixedPoint p blockHashes maxLen lcm groups fuel s1.currHitLength s1 := by
      rw [fixedPoint, pass, hpass]
      rfl
    rw [hunfold]
    by_cases hstop : s1.currHitLength ≥ hitLength
    · -- every group accepted the candidate
      have heq : s1.currHitLength = hitLength := by omega
      rw [if_pos hstop]
      refine ⟨hitLength, s1, rfl, le_rfl, fun hne => heq ▸ hal hne, ⟨fun idx g hg => ?_⟩⟩
      obtain ⟨rows, hr, hc, hsearched⟩ := hcov idx g hg
      rw [heq] at hc
      refine ⟨rows, hr, hc, fun hone hidx => le_antisymm (hsearched ?_) hc.le⟩
      rintro ⟨hf, hsome⟩
      rcases hidx with hidx | hn
      · have := hsimple (isSimpleHybrid_of_full hone hfirst hg hidx hf) idx
        simp [this] at hsome
      · rw [hf] at hn
        cases hn
    rw [if_neg hstop]
    by_cases hsimp : isSimpleHybrid groups = true
    · rw [if_pos hsimp]
      have hnone := hsimple hsimp
      have hnotnil : groups ≠ [] := by
        rintro rfl
        simp [isSimpleHybrid] at hsimp
      refine ⟨_, s1, rfl, hle, fun _ => hal hnotnil, ⟨fun idx g hg => ?_⟩⟩
      obtain ⟨rows, hr, hc, -⟩ := hcov idx g hg
      refine ⟨rows, hr, hc, fun _ hidx => ?_⟩
      -- full attention is first, so the other group is the last one of the pass
      rw [isSimpleHybrid, Bool.and_eq_true, decide_eq_true_eq] at hsimp
      obtain ⟨g0, g1, rfl⟩ := length_eq_two.mp hsimp.1
      have hf0 : g0.spec.kind.isFullAttention = true := by simpa using hsimp.2
      have hidx1 : idx = 1 := by
        rcases hidx with hidx | hn
        · have := (List.getElem?_eq_some_iff.mp hg).1
          omega
        cases idx with
        | zero =>
          obtain rfl : g0 = g := by simpa using hg
          rw [hf0] at hn
          cases hn
        | succ idx =>
          have := (List.getElem?_eq_some_iff.mp hg).1
          omega
      subst hidx1
      obtain rfl : g1 = g := by simpa using hg
      exact hok.last (g1, 1) rfl (fun h => by simp [hnone] at h) rows hr
    · rw [if_neg hsimp]
      have hnotnil : groups ≠ [] := by
        rintro rfl
        cases hpass
        exact hstop le_rfl
      have hent : Entering p maxLen lcm groups s1.currHitLength s1 := by
        refine ⟨⟨hle.trans hs.candidate.1, .inr (hal hnotnil)⟩, fun idx g hg _ => ?_⟩
        refine ⟨hal hnotnil, fun rows hr => ?_⟩
        obtain ⟨rows', hr', hc, -⟩ := hcov idx g hg
        rw [hr] at hr'
        cases hr'
        exact hc
      obtain ⟨L, s', hrun, hL, hdvd, hag⟩ := ih (by omega) s1 hent (fun h => absurd h hsimp)
      exact ⟨L, s', hrun, hL.trans hle, hdvd, hag⟩

end pass

section groups
variable {specs : List KVCacheSpec} {eagle : List Nat}

theorem foldl_lcm_dvd (gs : List AttentionGroup) (n : Nat) :
    n ∣ gs.foldl (fun n g => Nat.lcm n g.spec.blockSize) n ∧
      ∀ g ∈ gs, g.spec.blockSize ∣ gs.foldl (fun n g => Nat.lcm n g.spec.blockSize) n := by
  induction gs generalizing n with
  | nil => simp
  | cons g gs ih =>
    obtain ⟨h1, h2⟩ := ih (Nat.lcm n g.spec.blockSize)
    refine ⟨(Nat.dvd_lcm_left _ _).trans h1, fun g' hg' => ?_⟩
    rcases mem_cons.mp hg' with rfl | hg'
    · exact (Nat.dvd_lcm_right _ _).trans h1
    · exact h2 g' hg'

variable {g : AttentionGroup}

theorem blockSize_dvd_lcm {groups : List AttentionGroup} (hg : g ∈ groups) :
    g.spec.blockSize ∣ lcmBlockSize groups :=
  (foldl_lcm_dvd groups 1).2 g hg

theorem lcmBlockSize_pos (groups : List AttentionGroup) : 0 < lcmBlockSize groups := by
  suffices h : ∀ n, 0 < n → 0 < groups.foldl (fun n g => Nat.lcm n g.spec.blockSize) n from
    h 1 one_pos
  induction groups with
  | nil => exact fun n hn => hn
  | cons g gs ih => exact fun n hn => ih _ (Nat.lcm_pos hn g.spec.blockSize_pos)

theorem mem_addGroup_self (i : Nat) (spec : KVCacheSpec) (gs : List (KVCacheSpec × List Nat)) :
    ∃ e ∈ addGroup i spec gs, i ∈ e.2 := by
  induction gs with
  | nil => exact ⟨(spec, [i]), by simp [addGroup], by simp⟩
  | cons g gs ih =>
    unfold addGroup
    split
    · exact ⟨(g.1, g.2 ++ [i]), by simp, by simp⟩
    · obtain ⟨e, he, hi⟩ := ih
      exact ⟨e, by simp [he], hi⟩

theorem mem_addGroup_of_mem (i : Nat) (spec : KVCacheSpec) {gs : List (KVCacheSpec × List Nat)}
    {k : Nat} (h : ∃ e ∈ gs, k ∈ e.2) : ∃ e ∈ addGroup i spec gs, k ∈ e.2 := by
  obtain ⟨e, he, hk⟩ := h
  induction gs with
  | nil => simp at he
  | cons g gs ih =>
    unfold addGroup
    rcases mem_cons.mp he with rfl | he
    · split
      · exact ⟨(e.1, e.2 ++ [i]), by simp, by simp [hk]⟩
      · exact ⟨e, by simp, hk⟩
    split
    · exact ⟨e, by simp [he], hk⟩
    · obtain ⟨e', he', hk'⟩ := ih he
      exact ⟨e', by simp [he'], hk'⟩

theorem exists_attentionGroup (eagle : List Nat) {i : Nat} (hi : i < specs.length) :
    ∃ g ∈ attentionGroups specs eagle, i ∈ g.groupIds := by
  have hfold (es : List (KVCacheSpec × Nat)) (gs : List (KVCacheSpec × List Nat))
      (h : (∃ e ∈ gs, i ∈ e.2) ∨ i ∈ es.map (fun s => s.2)) :
      ∃ e ∈ es.foldl (fun gs s => addGroup s.2 s.1 gs) gs, i ∈ e.2 := by
    induction es generalizing gs with
    | nil => simpa using h
    | cons x xs ih =>
      refine ih _ ?_
      rcases h with h | h
      · exact .inl (mem_addGroup_of_mem x.2 x.1 h)
      · rcases mem_cons.mp h with rfl | h
        · exact .inl (mem_addGroup_self x.2 x.1 gs)
        · exact .inr h
  obtain ⟨e, he, hie⟩ := hfold specs.zipIdx [] (.inr (by
    rw [zipIdx_map_snd]
    simpa using hi))
  refine ⟨⟨e.1, e.2, e.2.any (fun i => i ∈ eagle)⟩, ?_, hie⟩
  simp only [attentionGroups, mem_append, mem_filter, mem_map]
  cases hf : e.1.kind.isFullAttention with
  | true => exact .inl ⟨⟨e, he, rfl⟩, rfl⟩
  | false => exact .inr ⟨⟨e, he, rfl⟩, rfl⟩

theorem groupBySpec_ne_nil {e : KVCacheSpec × List Nat} (he : e ∈ groupBySpec specs) :
    e.2 ≠ [] := by
  have hadd (i : Nat) (spec : KVCacheSpec) (gs : List (KVCacheSpec × List Nat))
      (h : ∀ e ∈ gs, e.2 ≠ []) : ∀ e ∈ addGroup i spec gs, e.2 ≠ [] := by
    induction gs with
    | nil => simp [addGroup]
    | cons g gs ih =>
      rw [forall_mem_cons] at h
      unfold addGroup
      split
      · simpa using h.2
      · rw [forall_mem_cons]
        exact ⟨h.1, ih h.2⟩
  have hfold (es : List (KVCacheSpec × Nat)) (gs : List (KVCacheSpec × List Nat))
      (h : ∀ e ∈ gs, e.2 ≠ []) : ∀ e ∈ es.foldl (fun gs s => addGroup s.2 s.1 gs) gs, e.2 ≠ [] := by
    induction es generalizing gs with
    | nil => exact h
    | cons x xs ih => exact ih _ (hadd x.2 x.1 gs h)
  exact hfold specs.zipIdx [] (by simp) e he

theorem groupIds_ne_nil (hg : g ∈ attentionGroups specs eagle) : g.groupIds ≠ [] := by
  simp only [attentionGroups, mem_append, mem_filter, mem_map] at hg
  rcases hg with ⟨⟨e, he, rfl⟩, -⟩ | ⟨⟨e, he, rfl⟩, -⟩ <;> exact groupBySpec_ne_nil he

theorem mem_specs_of_attentionGroup (hg : g ∈ attentionGroups specs eagle) : g.spec ∈ specs := by
  obtain ⟨i, hi⟩ := exists_mem_of_ne_nil _ (groupIds_ne_nil hg)
  exact mem_of_getElem? (attentionGroups_spec hg hi)

theorem fullFirst_attentionGroups : FullFirst (attentionGroups specs eagle) := by
  intro g hg hf g0 h0
  unfold attentionGroups at hg h0
  set groups := (groupBySpec specs).map (fun g =>
    ({ spec := g.1, groupIds := g.2, isEagle := g.2.any (fun i => i ∈ eagle) } :
      AttentionGroup))
  have hmem : g ∈ groups.filter (fun g => g.spec.kind.isFullAttention) := by
    rcases mem_append.mp hg with h | h
    · exact h
    · simp [hf] at h
  have hne : groups.filter (fun g => g.spec.kind.isFullAttention) ≠ [] := ne_nil_of_mem hmem
  rw [head?_append_of_ne_nil _ hne] at h0
  exact (mem_filter.mp (mem_of_mem_head? h0)).2

end groups

theorem length_hashesAt_of_le {hashes : List BlockHash} {hashBlockSize blockSize n : Nat}
    (hdvd : hashBlockSize ∣ blockSize) (hn : n / hashBlockSize ≤ hashes.length) :
    n / blockSize ≤ (hashesAt hashes hashBlockSize blockSize).length := by
  obtain ⟨scale, rfl⟩ := hdvd
  rw [length_hashesAt, ← Nat.div_div_eq_div_mul]
  cases Nat.eq_zero_or_pos hashBlockSize with
  | inl h => simp [h]
  | inr h =>
    rw [Nat.mul_div_cancel_left scale h]
    exact Nat.div_le_div_right hn

/-- A mutually consistent hit: one length for all groups, with the blocks of that many
tokens each, cached under the right keys, and none missing that the next token reads. -/
structure Consistent (p : BlockPool) (specs : List KVCacheSpec) (blockHashes : List BlockHash)
    (maxLen : Nat) (blocks : List (List Nat)) (L : Nat) : Prop where
  le : L ≤ maxLen
  aligned : ∀ spec ∈ specs, spec.blockSize ∣ L
  entries : ∀ (i : Nat) spec, specs[i]? = some spec →
    (blocks.getD i []).length = L / spec.blockSize
  key : ∀ (i : Nat) spec, specs[i]? = some spec → ∀ j b : Nat, (blocks.getD i [])[j]? = some b →
    b ≠ 0 → ∃ h, (hashesAt blockHashes p.hashBlockSize spec.blockSize)[j]? = some h ∧
      b ∈ p.cachedBlockHashToBlock (h, i)
  needed : ∀ (i : Nat) spec, specs[i]? = some spec → ∀ j, j < L / spec.blockSize →
    Needs spec.kind spec.blockSize L j → ∃ b, (blocks.getD i [])[j]? = some b ∧ b ≠ 0

/-- No EAGLE-flagged Mamba group has the alignment as its block size, and no second
full-attention group sits beside a third attention group. -/
def Compatible (groups : List AttentionGroup) : Prop :=
  (∀ g ∈ groups, g.isEagle = true → g.spec.kind.isMamba = true →
    g.spec.blockSize ≠ lcmBlockSize groups) ∧ OneFull groups

instance (groups : List AttentionGroup) : Decidable (Compatible groups) := by
  unfold Compatible OneFull
  infer_instance

theorem Agreed.finalRows {groups : List AttentionGroup} {L : Nat} {s : HitState}
    (h : Agreed p groups L s) (hone : OneFull groups) {idx : Nat} (hg : groups[idx]? = some g) :
    (finalRows groups L s idx).length = L / g.spec.blockSize ∧
      ∀ j, j < L / g.spec.blockSize → Needs g.spec.kind g.spec.blockSize L j →
        CachedAt p g.groupIds (finalRows groups L s idx) j := by
  obtain ⟨rows, hr, hc, hexact⟩ := h.covers idx g hg
  have hle : L / g.spec.blockSize ≤ rows.length := by
    rw [Nat.div_le_iff_le_mul_add_pred g.spec.blockSize_pos]
    have := hc.le
    rw [Nat.mul_comm] at this
    omega
  by_cases hfirst : idx = 0 ∧ g.spec.kind.isFullAttention = true
  · obtain ⟨rfl, hf⟩ := hfirst
    have hfin : CacheHit.finalRows groups L s 0 = rows.take (L / g.spec.blockSize) := by
      have h₀ : groups.head? = some g := by rw [head?_eq_getElem?, hg]
      simp only [CacheHit.finalRows, hr, h₀, Option.getD_some, if_pos hf]
    rw [hfin]
    refine ⟨by rw [length_take]; omega, fun j hj _ => ?_⟩
    refine (hc.needed j (by omega) ?_).take hj
    unfold Needs
    cases hk : g.spec.kind <;> simp_all [SpecKind.isFullAttention]
  have hlen : rows.length * g.spec.blockSize = L := hexact hone (by
    by_cases h0 : idx = 0
    · exact .inr (by simpa using fun hf => hfirst ⟨h0, hf⟩)
    · exact .inl h0)
  have hfin : CacheHit.finalRows groups L s idx = rows := by
    unfold CacheHit.finalRows
    simp only [hr, Option.getD_some]
    split
    · rename_i g0 h₀
      rw [head?_eq_getElem?, hg] at h₀
      cases h₀
      rw [if_neg (fun hf => hfirst ⟨rfl, hf⟩)]
    · rfl
  rw [hfin]
  refine ⟨(Nat.div_eq_of_eq_mul_left g.spec.blockSize_pos hlen.symm).symm, fun j hj hn => ?_⟩
  exact hc.needed j (by omega) (hlen.symm ▸ hn)

theorem CachedAt.column (hnull : ∀ key, 0 ∉ p.cachedBlockHashToBlock key) {groupIds : List Nat}
    {rows : Rows} {j k g : Nat} (h : CachedAt p groupIds rows j) (hk : groupIds[k]? = some g) :
    ∃ b, (column rows k)[j]? = some b ∧ b ≠ 0 := by
  obtain ⟨row, key, hr, hc⟩ := h
  obtain ⟨b, hb, hget⟩ := (getCachedBlock_eq_some hc).2 k g hk
  refine ⟨b, ?_, ?_⟩
  · simp [CacheHit.column, hr, hb]
  · rintro rfl
    exact hnull _ (mem_of_mem_head? hget)

theorem groupBlocks_eq (eagle : List Nat) (rowsOf : Nat → Rows) {i : Nat}
    (hi : specs[i]? = some spec) :
    ∃ g idx k, (attentionGroups specs eagle)[idx]? = some g ∧ g.spec = spec ∧
      g.groupIds[k]? = some i ∧
      groupBlocks (attentionGroups specs eagle) rowsOf i = column (rowsOf idx) k := by
  set groups := attentionGroups specs eagle
  have hlt : i < specs.length := (List.getElem?_eq_some_iff.mp hi).1
  obtain ⟨g', hg', hig'⟩ := exists_attentionGroup eagle hlt
  have hsome : (groups.zipIdx.find? (fun e => i ∈ e.1.groupIds)).isSome = true := by
    obtain ⟨idx', hidx'⟩ := mem_iff_getElem?.mp hg'
    rw [find?_isSome]
    exact ⟨(g', idx'), mem_zipIdx_iff_getElem?.mpr hidx', by simpa using hig'⟩
  obtain ⟨⟨g, idx⟩, hfind⟩ := Option.isSome_iff_exists.mp hsome
  have hmem := mem_zipIdx_iff_getElem?.mp (mem_of_find?_eq_some hfind)
  have hin : i ∈ g.groupIds := by simpa using find?_some hfind
  have hspec := attentionGroups_spec (mem_of_getElem? hmem) hin
  rw [hi] at hspec
  exact ⟨g, idx, g.groupIds.idxOf i, hmem, (Option.some.inj hspec).symm,
    getElem?_idxOf hin, by simp only [groupBlocks, hfind]⟩

theorem hybrid_agreed {maxLen : Nat}
    (hready : ∀ g ∈ attentionGroups specs eagle, GroupReady p blockHashes maxLen
      (lcmBlockSize (attentionGroups specs eagle)) g) :
    ∃ L s, hybrid p specs eagle blockHashes maxLen = .ok (some ((range specs.length).map
        (groupBlocks (attentionGroups specs eagle) (finalRows (attentionGroups specs eagle) L s)),
          L)) ∧
      L ≤ maxLen ∧ (∀ g ∈ attentionGroups specs eagle, g.spec.blockSize ∣ L) ∧
      Agreed p (attentionGroups specs eagle) L s := by
  set groups := attentionGroups specs eagle with hgroups
  let start : HitState := { currHitLength := maxLen, eagleVerified := [], hitRows := fun _ => none }
  have hstart : Entering p maxLen (lcmBlockSize groups) groups maxLen start := by
    refine ⟨⟨le_rfl, .inl rfl⟩, fun idx g _ hn => absurd ?_ hn⟩
    simp [Searched, start]
  obtain ⟨L, s, hrun, hL, hal, hag⟩ := fixedPoint_ok (lcmBlockSize_pos groups) hready
    fullFirst_attentionGroups (Nat.lt_succ_self maxLen) start hstart (fun _ _ => rfl)
  refine ⟨L, s, ?_, hL, fun g hg => ?_, hag⟩
  · simp only [hybrid]
    rw [hrun]
    rfl
  · exact (blockSize_dvd_lcm hg).trans (hal (ne_nil_of_mem hg))

/-- For compatible groups the search ends with a consistent hit. -/
theorem hybrid_consistent (p : BlockPool) (specs : List KVCacheSpec) (eagleGroupIds : List Nat)
    (blockHashes : List BlockHash) (maxCacheHitLength : Nat)
    (hkinds : ∀ spec ∈ specs, Searchable spec)
    (hdvd : ∀ spec ∈ specs, p.hashBlockSize ∣ spec.blockSize)
    (hhashes : maxCacheHitLength / p.hashBlockSize ≤ blockHashes.length)
    (hnull : ∀ key, 0 ∉ p.cachedBlockHashToBlock key)
    (hcompat : Compatible (attentionGroups specs eagleGroupIds)) :
    ∃ blocks L, hybrid p specs eagleGroupIds blockHashes maxCacheHitLength =
      .ok (some (blocks, L)) ∧ Consistent p specs blockHashes maxCacheHitLength blocks L := by
  set groups := attentionGroups specs eagleGroupIds with hgroups
  obtain ⟨L, s, hhybrid, hL, hal, hag⟩ := hybrid_agreed (p := p) (fun g hg => by
    have hs := mem_specs_of_attentionGroup hg
    exact ⟨hkinds _ hs, blockSize_dvd_lcm hg, length_hashesAt_of_le (hdvd _ hs) hhashes,
      hcompat.1 g hg⟩)
  refine ⟨_, L, hhybrid, ?_⟩
  have hcolumn (i : Nat) (spec : KVCacheSpec) (hi : specs[i]? = some spec) :
      ∃ g idx k, groups[idx]? = some g ∧ g.spec = spec ∧ g.groupIds[k]? = some i ∧
        ((range specs.length).map (groupBlocks groups (finalRows groups L s))).getD i [] =
          column (finalRows groups L s idx) k := by
    obtain ⟨g, idx, k, hg, hs, hk, heq⟩ := groupBlocks_eq eagleGroupIds (finalRows groups L s) hi
    refine ⟨g, idx, k, hg, hs, hk, ?_⟩
    have hlt : i < specs.length := (List.getElem?_eq_some_iff.mp hi).1
    simp only [getD_eq_getElem?_getD, getElem?_map, getElem?_range hlt,
      Option.map_some]
    exact heq
  refine ⟨hL, ?_, ?_, ?_, ?_⟩
  · intro spec hs
    obtain ⟨i, hi⟩ := mem_iff_getElem?.mp hs
    obtain ⟨g, idx, k, hg, rfl, -, -⟩ := hcolumn i spec hi
    exact hal g (mem_of_getElem? hg)
  · intro i spec hi
    obtain ⟨g, idx, k, hg, rfl, -, hcol⟩ := hcolumn i spec hi
    rw [hcol, CacheHit.column, length_map]
    exact (hag.finalRows hcompat.2 hg).1
  · intro i spec hi j b hj hb
    obtain ⟨h, hh, hone⟩ := hybrid_sound hhybrid hi j b hj hb
    exact ⟨h, hh, mem_of_mem_head? hone⟩
  · intro i spec hi j hj hn
    obtain ⟨g, idx, k, hg, rfl, hk, hcol⟩ := hcolumn i spec hi
    rw [hcol]
    exact ((hag.finalRows hcompat.2 hg).2 j hj hn).column hnull hk

/-! A hit of positive length comes with at least one block. -/

theorem map_fst_addGroup (i : Nat) (spec : KVCacheSpec) (gs : List (KVCacheSpec × List Nat)) :
    (addGroup i spec gs).map Prod.fst =
      if spec ∈ gs.map Prod.fst then gs.map Prod.fst else gs.map Prod.fst ++ [spec] := by
  induction gs with
  | nil => simp [addGroup]
  | cons g gs ih =>
    unfold addGroup
    by_cases hg : g.1 = spec
    · simp [hg]
    · rw [if_neg hg, map_cons, ih]
      simp only [map_cons, mem_cons, Ne.symm hg, false_or]
      split <;> simp

theorem nodup_spec_attentionGroups (specs : List KVCacheSpec) (eagle : List Nat) :
    ((attentionGroups specs eagle).map (fun g => g.spec)).Nodup := by
  have hfold (es : List (KVCacheSpec × Nat)) (gs : List (KVCacheSpec × List Nat))
      (h : (gs.map Prod.fst).Nodup) :
      ((es.foldl (fun gs s => addGroup s.2 s.1 gs) gs).map Prod.fst).Nodup := by
    induction es generalizing gs with
    | nil => exact h
    | cons x xs ih =>
      refine ih _ ?_
      rw [map_fst_addGroup]
      split
      · exact h
      rename_i hx
      exact nodup_append.mpr ⟨h, by simp, by
        intro a ha b hb
        rw [mem_singleton.mp hb]
        exact fun hab => hx (hab ▸ ha)⟩
  refine (((filter_append_perm _ _).map _).nodup_iff).mpr ?_
  rw [map_map]
  exact hfold specs.zipIdx [] (by simp)

theorem groupBlocks_of_mem (rowsOf : Nat → Rows) {idx : Nat}
    (hg : (attentionGroups specs eagle)[idx]? = some g) {i : Nat} (hi : i ∈ g.groupIds) :
    ∃ k, groupBlocks (attentionGroups specs eagle) rowsOf i = column (rowsOf idx) k := by
  have hspec := attentionGroups_spec (mem_of_getElem? hg) hi
  obtain ⟨g', idx', k, hg', hs, -, heq⟩ := groupBlocks_eq eagle rowsOf hspec
  have hidx : idx' = idx := by
    have hmap (j : Nat) (a : AttentionGroup) (ha : (attentionGroups specs eagle)[j]? = some a) :
        ((attentionGroups specs eagle).map (fun g => g.spec))[j]? = some a.spec := by
      rw [getElem?_map, ha, Option.map_some]
    have h1 := hmap idx g hg
    have h2 := hmap idx' g' hg'
    have hlt := (List.getElem?_eq_some_iff.mp h2).1
    exact (getElem?_inj hlt (nodup_spec_attentionGroups specs eagle)).mp (by rw [h1, h2, hs])
  subst hidx
  exact ⟨k, heq⟩

theorem allFull_of_last
    (hsplit : attentionGroups specs eagle = gs ++ [g]) (hf : g.spec.kind.isFullAttention = true) :
    ∀ g' ∈ attentionGroups specs eagle, g'.spec.kind.isFullAttention = true := by
  unfold attentionGroups at hsplit ⊢
  simp only at hsplit ⊢
  set groups := (groupBySpec specs).map (fun g =>
    ({ spec := g.1, groupIds := g.2, isEagle := g.2.any (fun i => i ∈ eagle) } :
      AttentionGroup))
  obtain hnil | ⟨rest, x, hrest⟩ := eq_nil_or_concat
    (groups.filter (fun g => !g.spec.kind.isFullAttention))
  · rw [hnil, append_nil]
    exact fun g' hg' => (mem_filter.mp hg').2
  have hx : x ∈ groups.filter (fun g => !g.spec.kind.isFullAttention) := by simp [hrest]
  rw [hrest, concat_eq_append, ← append_assoc] at hsplit
  have hxg : x = g := by simpa using (append_inj' hsplit rfl).2
  simp [hxg, hf] at hx

theorem searchable_of_full (h : spec.kind.isFullAttention = true) :
    Searchable spec ∧ spec.kind.isMamba = false := by
  unfold Searchable
  cases hk : spec.kind <;> simp_all [SpecKind.isFullAttention, SpecKind.isMamba]

section last
variable {p : BlockPool} {blockHashes : List BlockHash} {maxLen lcm : Nat}
  {groups : List AttentionGroup}

theorem fixedPoint_last {fuel hitLength L : Nat} {s s' : HitState}
    (h : fixedPoint p blockHashes maxLen lcm groups fuel hitLength s = .ok (some (L, s'))) :
    ∃ s0, pass p blockHashes maxLen lcm groups s0 = .ok s' ∧ L ≤ s'.currHitLength := by
  induction fuel generalizing hitLength s with
  | zero => cases h
  | succ fuel ih =>
    unfold fixedPoint at h
    rw [seq_ok_iff] at h
    obtain ⟨s1, hpass, h⟩ := h
    split_ifs at h with hstop
    · cases h
      exact ⟨_, hpass, hstop⟩
    · cases h
      exact ⟨_, hpass, le_rfl⟩
    · exact ih h

theorem pass_last {g : AttentionGroup} {s s' : HitState}
    (hg : g.spec.kind.isFullAttention = false)
    (h : pass p blockHashes maxLen lcm (gs ++ [g]) s = .ok s') :
    ∃ rows, s'.hitRows gs.length = some rows ∧
      rows.length * g.spec.blockSize = s'.currHitLength := by
  rw [pass, zipIdx_append, foldlM_append, seq_ok_iff] at h
  obtain ⟨s1, -, h⟩ := h
  simp only [zipIdx_cons, zipIdx_nil, foldlM_cons, seq_ok_iff] at h
  obtain ⟨s2, h, hret⟩ := h
  cases hret
  unfold passGroup at h
  simp only [Nat.zero_add] at h
  rw [if_neg (by simp [hg]), seq_ok_iff] at h
  obtain ⟨rows, -, h⟩ := h
  cases h
  exact ⟨rows, Function.update_self _ _ _, rfl⟩

end last

theorem hybrid_ne_nil {maxLen : Nat} {blocks : List (List Nat)} {L : Nat}
    (hdvd : ∀ spec ∈ specs, p.hashBlockSize ∣ spec.blockSize)
    (hhashes : maxLen / p.hashBlockSize ≤ blockHashes.length) (hspecs : specs ≠ [])
    (h : hybrid p specs eagle blockHashes maxLen = .ok (some (blocks, L))) (hL : 0 < L) :
    ∃ l ∈ blocks, l ≠ [] := by
  set groups := attentionGroups specs eagle with hgroups
  -- some cache group reads the non-empty rows of its attention group
  have hread (s : HitState) (idx : Nat) (g : AttentionGroup) (hg : groups[idx]? = some g)
      (hpos : 0 < (finalRows groups L s idx).length)
      (hblocks : blocks = (range specs.length).map
        (groupBlocks groups (finalRows groups L s))) : ∃ l ∈ blocks, l ≠ [] := by
    obtain ⟨i, hi⟩ := exists_mem_of_ne_nil _ (groupIds_ne_nil (mem_of_getElem? hg))
    obtain ⟨k, hk⟩ := groupBlocks_of_mem (finalRows groups L s) hg hi
    have hlt := (List.getElem?_eq_some_iff.mp
      (attentionGroups_spec (mem_of_getElem? hg) hi)).1
    refine ⟨_, hblocks ▸ mem_map_of_mem (mem_range.mpr hlt), ?_⟩
    rw [hk, column, ← length_pos_iff, length_map]
    exact hpos
  have hne : groups ≠ [] := by
    obtain ⟨spec, hs⟩ := exists_mem_of_ne_nil _ hspecs
    obtain ⟨i, hi⟩ := mem_iff_getElem?.mp hs
    obtain ⟨g, hg, -⟩ := exists_attentionGroup eagle (List.getElem?_eq_some_iff.mp hi).1
    exact ne_nil_of_mem hg
  obtain ⟨gs, g, hsplit⟩ := (eq_nil_or_concat groups).resolve_left hne
  rw [concat_eq_append] at hsplit
  cases hf : g.spec.kind.isFullAttention with
  | false =>
    have h' := h
    simp only [hybrid, ← hgroups, seq_ok_iff] at h'
    obtain ⟨res, hres, h'⟩ := h'
    cases res with
    | none => cases h'
    | some r =>
      obtain ⟨L', s⟩ := r
      cases h'
      obtain ⟨s0, hpass, hle⟩ := fixedPoint_last hres
      rw [hsplit] at hpass
      obtain ⟨rows, hrows, hlen⟩ := pass_last hf hpass
      have hg : groups[gs.length]? = some g := by simp [hsplit]
      refine hread s gs.length g hg ?_ rfl
      have hfin : finalRows groups L' s gs.length = rows := by
        unfold finalRows
        simp only [hrows]
        split
        · rename_i g0 hidx h0
          rw [head?_eq_getElem?, ← hidx, hg] at h0
          cases h0
          simp [hf]
        · rfl
      rw [hfin]
      by_contra hzero
      have : rows.length = 0 := by omega
      rw [this] at hlen
      omega
  | true =>
    have hall := allFull_of_last (hgroups ▸ hsplit) hf
    obtain ⟨L', s, hhybrid, -, hal, hag⟩ := hybrid_agreed (p := p) (fun g' hg' => by
      have hs := mem_specs_of_attentionGroup hg'
      obtain ⟨hsearch, hmamba⟩ := searchable_of_full (hall g' hg')
      exact ⟨hsearch, blockSize_dvd_lcm hg', length_hashesAt_of_le (hdvd _ hs) hhashes,
        fun _ hm => by simp [hmamba] at hm⟩)
    rw [hhybrid] at h
    obtain ⟨hblocks, rfl⟩ := Prod.mk.inj (Option.some.inj (Except.ok.inj h))
    obtain ⟨g1, hg1⟩ : ∃ g1, groups[0]? = some g1 := by
      cases hgs : groups with
      | nil => exact absurd hgs hne
      | cons a as => exact ⟨a, rfl⟩
    refine hread s 0 g1 hg1 ?_ hblocks.symm
    obtain ⟨rows, hrows, hc, -⟩ := hag.covers 0 g1 hg1
    obtain ⟨n, hn⟩ := hal g1 (mem_of_getElem? hg1)
    have hfin : finalRows groups L' s 0 = rows.take n := by
      have h0 : groups.head? = some g1 := by rw [head?_eq_getElem?, hg1]
      simp only [finalRows, hrows, h0, Option.getD_some, if_pos (hall g1 (mem_of_getElem? hg1)),
        hn, Nat.mul_div_cancel_left n g1.spec.blockSize_pos]
    have hpos : 0 < n := by
      by_contra hz
      obtain rfl : n = 0 := by omega
      omega
    have hrow : 0 < rows.length := by
      have := hc.le
      by_contra hz
      rw [show rows.length = 0 by omega] at this
      omega
    rw [hfin, length_take]
    omega

/-! One full-attention group beside a second group, one token per block. -/

def pairSpec (kind : SpecKind) (h : kind.Valid) : KVCacheSpec where
  kind := kind
  blockSize := 1
  layout := ⟨1, 1, 0, none, 0⟩
  blockSize_pos := Nat.one_pos
  kind_valid := h

def pairSpecs (kind : SpecKind) (h : kind.Valid) : List KVCacheSpec :=
  [pairSpec (.fullAttention .full) trivial, pairSpec kind h]

def pairHashes : List BlockHash := BlockHash.uniform [7] 3 .noneHash

def pairPool : BlockPool :=
  ([(0, 0, 1), (1, 0, 2), (2, 0, 3), (1, 1, 4), (2, 1, 5)] : List (Nat × Nat × Nat)).foldl
    (fun p x => p.register ((pairHashes.drop x.1).take 1, x.2.1) x.2.2) (.init 10 true 1 false)

theorem pairPool_null : ∀ key, 0 ∉ pairPool.cachedBlockHashToBlock key := by
  refine foldlRecOn (motive := fun p : BlockPool => ∀ key, 0 ∉ p.cachedBlockHashToBlock key) _ _
    (by simp [init]) (fun p h x hx => notMem_register h _ ?_)
  revert x
  decide

def windowPair : List KVCacheSpec := pairSpecs (.slidingWindow 2) Nat.two_pos

/-- Both groups drop the block that EAGLE matched beyond the hit of two tokens. -/
theorem pair_window_consistent :
    hybrid pairPool windowPair [0, 1] pairHashes 3 = .ok (some ([[1, 2], [0, 4]], 2)) ∧
      Consistent pairPool windowPair pairHashes 3 [[1, 2], [0, 4]] 2 := by
  have hval : hybrid pairPool windowPair [0, 1] pairHashes 3 =
      .ok (some ([[1, 2], [0, 4]], 2)) := by decide +kernel
  obtain ⟨blocks, L, he, hc⟩ := hybrid_consistent pairPool windowPair [0, 1] pairHashes 3
    (by decide) (by decide) (by decide) pairPool_null (by decide +kernel)
  cases he.symm.trans hval
  exact ⟨hval, hc⟩

/-- Full attention drops its second block for EAGLE, Mamba keeps the one it was asked to add,
and the returned length is Mamba's. -/
theorem pair_mamba_counter :
    hybrid pairPool (pairSpecs (.mamba .all 0) trivial) [0, 1] pairHashes 2 =
        .ok (some ([[1], [0, 4]], 2)) ∧
      ¬ Consistent pairPool (pairSpecs (.mamba .all 0) trivial) pairHashes 2 [[1], [0, 4]] 2 := by
  refine ⟨by decide +kernel, fun h => ?_⟩
  have := h.entries 0 _ rfl
  simp [pairSpec] at this

end TailBlend.CacheHit
