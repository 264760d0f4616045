import TailBlend.CacheHitSound

/-! Lengths of the hits: every search returns whole alignment units, stays within the
length it was asked for, and finds the blocks that the attention reads next. -/
namespace TailBlend.CacheHit
open BlockPool List

theorem alignedLength_le (blockSize alignment n : Nat) :
    alignedLength blockSize alignment n ≤ n := by
  induction n with
  | zero => exact le_rfl
  | succ n ih =>
    unfold alignedLength
    split
    · omega
    · exact le_rfl

theorem dvd_alignedLength (blockSize alignment n : Nat) :
    alignment ∣ alignedLength blockSize alignment n * blockSize := by
  induction n with
  | zero => simp [alignedLength]
  | succ n ih =>
    unfold alignedLength
    split
    · exact ih
    rename_i h
    by_cases hb : blockSize = alignment
    · exact hb ▸ Nat.dvd_mul_left _ _
    · exact Nat.dvd_of_mod_eq_zero (by simpa [hb] using h)

theorem alignedLength_of_dvd {blockSize alignment n : Nat} (h : alignment ∣ n * blockSize) :
    alignedLength blockSize alignment n = n := by
  cases n with
  | zero => rfl
  | succ n =>
    unfold alignedLength
    rw [if_neg]
    rintro ⟨-, hmod⟩
    exact hmod (Nat.mod_eq_zero_of_dvd h)

/-- Block `j` holds a position that the token at position `length` attends to. -/
def Needs (kind : SpecKind) (blockSize length j : Nat) : Prop :=
  match kind with
  | .slidingWindow w => ∃ pos, j * blockSize ≤ pos ∧ pos < (j + 1) * blockSize ∧ length < pos + w
  | .mamba _ _ => (j + 1) * blockSize = length
  | _ => True

def CachedAt (p : BlockPool) (groupIds : List Nat) (rows : Rows) (j : Nat) : Prop :=
  ∃ row h, rows[j]? = some row ∧ p.getCachedBlock h groupIds = some row

/-- A search with limit `maxLength` returned `rows`; with EAGLE the last block it matched
was dropped again, except that Mamba keeps it. -/
structure Hit (p : BlockPool) (spec : KVCacheSpec) (groupIds : List Nat) (maxLength : Nat)
    (useEagle : Bool) (alignment : Nat) (rows : Rows) : Prop where
  le : rows.length * spec.blockSize ≤ maxLength
  eagle : useEagle = true → spec.kind.isMamba = false →
    rows = [] ∨ (rows.length + 1) * spec.blockSize ≤ maxLength
  aligned : alignment ∣ rows.length * spec.blockSize
  needed : ∀ j, j < rows.length → Needs spec.kind spec.blockSize (rows.length * spec.blockSize) j →
    CachedAt p groupIds rows j

section search
variable {p : BlockPool} {hashes : List (List BlockHash)} {groupIds : List Nat} {rows : Rows}

variable {j n i alignment maxLength : Nat} {useEagle : Bool} {spec : KVCacheSpec}

theorem CachedAt.take (h : CachedAt p groupIds rows j) (hj : j < n) :
    CachedAt p groupIds (rows.take n) j := by
  obtain ⟨row, k, hr, hk⟩ := h
  exact ⟨row, k, by rw [getElem?_take, if_pos hj, hr], hk⟩

theorem CachedAt.set_of_ne (row : List Nat) (h : CachedAt p groupIds rows j) (hij : i ≠ j) :
    CachedAt p groupIds (rows.set i row) j := by
  obtain ⟨r, k, hr, hk⟩ := h
  exact ⟨r, k, by rw [getElem?_set_ne hij, hr], hk⟩

theorem length_scan_le (p : BlockPool) (groupIds : List Nat) (hs : List (List BlockHash)) :
    (scan p groupIds hs).length ≤ hs.length := by
  induction hs with
  | nil => simp [scan]
  | cons k ks ih =>
    unfold scan
    split
    · simpa using ih
    · simp

theorem scan_cached (p : BlockPool) (groupIds : List Nat) (hs : List (List BlockHash)) (j : Nat)
    (hj : j < (scan p groupIds hs).length) : CachedAt p groupIds (scan p groupIds hs) j := by
  obtain ⟨k, -, hk⟩ := scan_sound p groupIds hs j _ (getElem?_eq_getElem hj)
  exact ⟨_, k, getElem?_eq_getElem hj, hk⟩

theorem popUnaligned_length (blockSize alignment : Nat) (rows : Rows) :
    (popUnaligned blockSize alignment rows).length =
      alignedLength blockSize alignment rows.length := by
  have := alignedLength_le blockSize alignment rows.length
  rw [popUnaligned, length_take]
  omega

theorem popUnaligned_cached (blockSize alignment : Nat)
    (h : ∀ j, j < rows.length → CachedAt p groupIds rows j) (j : Nat)
    (hj : j < (popUnaligned blockSize alignment rows).length) :
    CachedAt p groupIds (popUnaligned blockSize alignment rows) j := by
  rw [popUnaligned_length] at hj
  have := alignedLength_le blockSize alignment rows.length
  exact (h j (by omega)).take hj

theorem dropLast_cached (h : ∀ j, j < rows.length → CachedAt p groupIds rows j) (j : Nat)
    (hj : j < rows.dropLast.length) : CachedAt p groupIds rows.dropLast j := by
  rw [length_dropLast] at hj
  rw [dropLast_eq_take]
  exact (h j (by omega)).take hj

theorem fullAttention_hit (p : BlockPool) (spec : KVCacheSpec)
    (hashes : List (List BlockHash)) (maxLength : Nat) (groupIds : List Nat) (useEagle : Bool)
    (alignment : Nat) :
    Hit p spec groupIds maxLength useEagle alignment
      (fullAttention p hashes maxLength groupIds spec.blockSize useEagle alignment) := by
  set computed := scan p groupIds (hashes.take (maxLength / spec.blockSize)) with hcomputed
  have hlen : computed.length ≤ maxLength / spec.blockSize := by
    have := length_scan_le p groupIds (hashes.take (maxLength / spec.blockSize))
    rw [← hcomputed, length_take] at this
    omega
  have hmul (n : Nat) (hn : n ≤ maxLength / spec.blockSize) : n * spec.blockSize ≤ maxLength :=
    (Nat.le_div_iff_mul_le spec.blockSize_pos).mp hn
  have hcached (j : Nat) (hj : j < (popEagle useEagle computed).length) :
      CachedAt p groupIds (popEagle useEagle computed) j := by
    unfold popEagle at hj ⊢
    split
    · rename_i he
      rw [if_pos he] at hj
      exact dropLast_cached (scan_cached p groupIds _) j hj
    · rename_i he
      rw [if_neg he] at hj
      exact scan_cached p groupIds _ j hj
  have hle := alignedLength_le spec.blockSize alignment (popEagle useEagle computed).length
  have hlen' : (popEagle useEagle computed).length ≤ computed.length := by
    unfold popEagle
    split <;> simp
  have hrows : (fullAttention p hashes maxLength groupIds spec.blockSize useEagle alignment).length
      = alignedLength spec.blockSize alignment (popEagle useEagle computed).length :=
    popUnaligned_length _ _ _
  refine ⟨?_, ?_, ?_, ?_⟩
  · exact hmul _ (by omega)
  · intro he _
    by_cases hempty : computed.length = 0
    · refine .inl (length_eq_zero_iff.mp ?_)
      omega
    have hdrop : (popEagle useEagle computed).length = computed.length - 1 := by
      simp [popEagle, he]
    refine .inr ?_
    exact hmul _ (by omega)
  · rw [hrows]
    exact dvd_alignedLength _ _ _
  · intro j hj _
    exact popUnaligned_cached spec.blockSize alignment hcached j hj

/-- What the search from the right knows: rows `k - run` to `k - 1` are cached, and `k` is
aligned (one less with EAGLE, where the last row is dropped). -/
structure Run (p : BlockPool) (groupIds : List Nat) (blockSize : Nat) (useEagle : Bool)
    (alignment : Nat) (rows : Rows) (k run : Nat) : Prop where
  cached : ∀ j, k - run ≤ j → j < k → CachedAt p groupIds rows j
  aligned : 0 < run → alignment ∣ (if useEagle then k - 1 else k) * blockSize

theorem slidingSearch_spec {blockSize : Nat} {needed run : Nat} {computed : Rows} {run' : Nat}
    {found : Bool} (hlen : i + run ≤ computed.length)
    (hrun : Run p groupIds blockSize useEagle alignment computed (i + run) run)
    (he : slidingSearch p hashes groupIds blockSize useEagle alignment needed i computed run =
      .ok (rows, run', found)) :
    rows.length ≤ computed.length ∧ run' ≤ rows.length ∧
      (found = true → needed ≤ run' ∧ 0 < run' ∧
        Run p groupIds blockSize useEagle alignment rows rows.length run') ∧
      (found = false → Run p groupIds blockSize useEagle alignment rows run' run') := by
  induction i generalizing computed run with
  | zero =>
    cases he
    rw [Nat.zero_add] at hrun hlen
    exact ⟨le_rfl, hlen, by simp, fun _ => hrun⟩
  | succ i ih =>
    unfold slidingSearch at he
    split at he
    · cases he
    split at he
    · rename_i row hr
      by_cases hskip : run = 0 ∧ blockSize ≠ alignment ∧
          (if useEagle then i else i + 1) * blockSize % alignment ≠ 0
      · rw [if_pos hskip] at he
        exact ih (by omega) ⟨fun j h1 h2 => by omega, fun h => by omega⟩ he
      rw [if_neg hskip] at he
      have hset : (computed.set i row).length = computed.length := length_set
      have hnext : Run p groupIds blockSize useEagle alignment (computed.set i row)
          (i + (run + 1)) (run + 1) := by
        refine ⟨fun j h1 h2 => ?_, fun _ => ?_⟩
        · by_cases hj : i = j
          · subst hj
            exact ⟨row, _, getElem?_set_self (by omega), hr⟩
          · exact (hrun.cached j (by omega) (by omega)).set_of_ne row hj
        by_cases h0 : run = 0
        · subst h0
          by_cases hb : blockSize = alignment
          · exact hb ▸ Nat.dvd_mul_left _ _
          have hmod : (if useEagle then i else i + 1) * blockSize % alignment = 0 := by
            by_contra hne
            exact hskip ⟨rfl, hb, hne⟩
          simpa using Nat.dvd_of_mod_eq_zero hmod
        · have := hrun.aligned (by omega)
          rwa [show i + (run + 1) = i + 1 + run by omega]
      by_cases hn : run + 1 ≥ needed
      · rw [if_pos hn] at he
        cases he
        have htake : ((computed.set i row).take (i + (run + 1))).length = i + (run + 1) := by
          rw [length_take]
          omega
        refine ⟨by omega, by omega, fun _ => ⟨hn, by omega, ?_⟩, by simp⟩
        rw [htake]
        exact ⟨fun j h1 h2 => (hnext.cached j h1 h2).take h2, hnext.aligned⟩
      · rw [if_neg hn] at he
        have := ih (by omega) hnext he
        rwa [hset] at this
    · exact ih (by omega) ⟨fun j h1 h2 => by omega, fun h => by omega⟩ he

theorem needs_sliding {w blockSize : Nat} (hb : 0 < blockSize) (hj : j < n)
    (h : Needs (.slidingWindow w) blockSize (n * blockSize) j) :
    n ≤ j + (cdiv (w - 1 : Int) blockSize).toNat := by
  obtain ⟨pos, -, hpos, hw⟩ := h
  have hlt : ((n - j - 1 : Nat) : Int) < cdiv (w - 1 : Int) blockSize := by
    rw [lt_cdiv_iff _ _ hb]
    have : (n - j - 1) * blockSize + (j + 1) * blockSize = n * blockSize := by
      rw [← Nat.add_mul]
      congr 1
      omega
    omega
  omega

theorem slidingWindow_hit {w : Nat} (hk : spec.kind = .slidingWindow w)
    (he : slidingWindow p hashes maxLength groupIds spec.blockSize w useEagle alignment = .ok rows)
    : Hit p spec groupIds maxLength useEagle alignment rows := by
  unfold slidingWindow at he
  rw [seq_ok_iff] at he
  obtain ⟨⟨computed, run, found⟩, hs, he⟩ := he
  simp only at he
  have hstart : Run p groupIds spec.blockSize useEagle alignment
      (replicate (maxLength / spec.blockSize) (nullRow groupIds))
      (maxLength / spec.blockSize + 0) 0 :=
    ⟨fun j h1 h2 => by omega, fun h => by omega⟩
  obtain ⟨hle, hrun, hfound, hmiss⟩ := slidingSearch_spec (by simp) hstart hs
  rw [length_replicate] at hle
  have hmul (n : Nat) (hn : n ≤ maxLength / spec.blockSize) : n * spec.blockSize ≤ maxLength :=
    (Nat.le_div_iff_mul_le spec.blockSize_pos).mp hn
  have hneeds (n j : Nat) (hj : j < n)
      (h : Needs spec.kind spec.blockSize (n * spec.blockSize) j) :
      n ≤ j + (cdiv (w - 1 : Int) spec.blockSize).toNat :=
    needs_sliding spec.blockSize_pos hj (hk ▸ h)
  cases found with
  | true =>
    obtain ⟨hneed, hpos, hr⟩ := hfound rfl
    rw [if_pos rfl] at he
    have hal := hr.aligned hpos
    cases useEagle with
    | true =>
      rw [if_pos ⟨rfl, by rintro rfl; simp at hrun; omega⟩] at he
      rw [if_pos rfl] at hal hneed
      have hlen : (popUnaligned spec.blockSize alignment computed.dropLast).length =
          computed.length - 1 := by
        rw [popUnaligned_length, length_dropLast, alignedLength_of_dvd hal]
      rw [← Except.ok.inj he]
      refine ⟨hmul _ (by omega), fun _ _ => .inr (hmul _ (by omega)), by rwa [hlen], ?_⟩
      intro j hj hn
      have := hneeds _ j hj hn
      rw [popUnaligned, length_dropLast, alignedLength_of_dvd hal, dropLast_eq_take]
      exact ((hr.cached j (by omega) (by omega)).take (by omega)).take (by omega)
    | false =>
      rw [← Except.ok.inj he]
      refine ⟨hmul _ hle, by simp, hal, ?_⟩
      intro j hj hn
      have := hneeds _ j hj hn
      exact hr.cached j (by omega) hj
  | false =>
    -- the run reaches the first block, so that every row is cached
    have hr := hmiss rfl
    simp only [Bool.false_eq_true, if_false] at he
    have hall (j : Nat) (hj : j < (computed.take run).length) :
        CachedAt p groupIds (computed.take run) j := by
      rw [length_take] at hj
      exact (hr.cached j (by omega) (by omega)).take (by omega)
    have hpop := popUnaligned_cached spec.blockSize alignment hall
    have hlen := alignedLength_le spec.blockSize alignment (computed.take run).length
    rw [← popUnaligned_length, length_take] at hlen
    set kept := popUnaligned spec.blockSize alignment (computed.take run) with hkept
    by_cases hdrop : useEagle = true ∧ kept ≠ []
    · rw [if_pos hdrop] at he
      rw [← Except.ok.inj he]
      have hpos : 0 < kept.length := length_pos_iff.mpr hdrop.2
      have hlen2 := alignedLength_le spec.blockSize alignment kept.dropLast.length
      rw [← popUnaligned_length, length_dropLast] at hlen2
      refine ⟨hmul _ (by omega), fun _ _ => .inr (hmul _ (by omega)), ?_, ?_⟩
      · rw [popUnaligned_length]
        exact dvd_alignedLength _ _ _
      · intro j hj _
        exact popUnaligned_cached spec.blockSize alignment (dropLast_cached hpop) j hj
    rw [if_neg hdrop] at he
    rw [← Except.ok.inj he]
    refine ⟨hmul _ (by omega), fun hu _ => .inl ?_, ?_, fun j hj _ => hpop j hj⟩
    · by_contra hne
      exact hdrop ⟨hu, hne⟩
    · rw [popUnaligned_length]
      exact dvd_alignedLength _ _ _

theorem mambaSearch_hit {mode : MambaCacheMode} {k : Nat} (hk : spec.kind = .mamba mode k)
    (hn : n * spec.blockSize ≤ maxLength)
    (he : mambaSearch p hashes groupIds spec.blockSize alignment n = .ok rows) :
    Hit p spec groupIds maxLength useEagle alignment rows := by
  have hpred {i : Nat} (h : (i + 1) * spec.blockSize ≤ maxLength) :
      i * spec.blockSize ≤ maxLength :=
    (Nat.mul_le_mul_right _ (Nat.le_succ i)).trans h
  fun_induction mambaSearch with
  | case1 =>
    cases he
    exact ⟨by simp, fun _ _ => .inl rfl, by simp, fun j hj => by simp at hj⟩
  | case2 => cases he
  | case3 i key hkey row hr hskip ih => exact ih (hpred hn) he
  | case4 i key hkey row hr hskip =>
    cases he
    have hlen : (replicate i (nullRow groupIds) ++ [row]).length = i + 1 := by simp
    refine ⟨by rwa [hlen], fun _ hm => by simp [hk, SpecKind.isMamba] at hm, ?_, ?_⟩
    · by_cases hb : spec.blockSize = alignment
      · exact hb ▸ Nat.dvd_mul_left _ _
      · exact Nat.dvd_of_mod_eq_zero (by simpa [hb] using hskip)
    intro j _ hneeds
    rw [hk] at hneeds
    have hj : j = i := by
      have := Nat.eq_of_mul_eq_mul_right spec.blockSize_pos hneeds
      omega
    subst hj
    exact ⟨row, key, by simp, hr⟩
  | case5 i key hkey hr ih => exact ih (hpred hn) he

theorem slidingSearch_ok (p : BlockPool) (groupIds : List Nat) (blockSize : Nat) (useEagle : Bool)
    (alignment needed : Nat) (hi : i ≤ hashes.length) (computed : Rows) (run : Nat) :
    ∃ res, slidingSearch p hashes groupIds blockSize useEagle alignment needed i computed run =
      .ok res := by
  fun_induction slidingSearch with
  | case1 => exact ⟨_, rfl⟩
  | case2 i computed run hk => exact absurd (getElem?_eq_none_iff.mp hk) (by omega)
  | case3 i computed run k hk row hr hskip ih => exact ih (by omega)
  | case4 => exact ⟨_, rfl⟩
  | case5 i computed run k hk row hr hskip hn ih => exact ih (by omega)
  | case6 i computed run k hk hr ih => exact ih (by omega)

theorem mambaSearch_ok (p : BlockPool) (groupIds : List Nat) (blockSize alignment : Nat)
    (hn : n ≤ hashes.length) :
    ∃ res, mambaSearch p hashes groupIds blockSize alignment n = .ok res := by
  fun_induction mambaSearch with
  | case1 => exact ⟨_, rfl⟩
  | case2 i hk => exact absurd (getElem?_eq_none_iff.mp hk) (by omega)
  | case3 i k hk row hr hskip ih => exact ih (by omega)
  | case4 => exact ⟨_, rfl⟩
  | case5 i k hk hr ih => exact ih (by omega)

def Searchable (spec : KVCacheSpec) : Prop :=
  match spec.kind with
  | .fullAttention _ | .slidingWindow _ | .mamba _ _ => True
  | _ => False

instance (spec : KVCacheSpec) : Decidable (Searchable spec) := by
  unfold Searchable
  split <;> infer_instance

theorem findLongestCacheHit_hit (p : BlockPool) (groupIds : List Nat) (useEagle : Bool)
    (alignment : Nat) (hspec : Searchable spec)
    (hlen : maxLength / spec.blockSize ≤ hashes.length) :
    ∃ rows, findLongestCacheHit p spec hashes maxLength groupIds useEagle alignment = .ok rows ∧
      Hit p spec groupIds maxLength useEagle alignment rows := by
  unfold Searchable at hspec
  unfold findLongestCacheHit
  cases hk : spec.kind with
  | fullAttention cls =>
    exact ⟨_, rfl, fullAttention_hit p spec hashes maxLength groupIds useEagle alignment⟩
  | slidingWindow w =>
    have hok : ∃ rows, slidingWindow p hashes maxLength groupIds spec.blockSize w useEagle
        alignment = .ok rows := by
      unfold slidingWindow
      obtain ⟨res, hres⟩ := slidingSearch_ok p groupIds spec.blockSize useEagle alignment
        ((cdiv (w - 1 : Int) spec.blockSize).toNat + (if useEagle then 1 else 0)) hlen
        (replicate (maxLength / spec.blockSize) (nullRow groupIds)) 0
      simp only [hres, bind, Except.bind]
      generalize (if res.2.2 then res.1 else
        popUnaligned spec.blockSize alignment (res.1.take res.2.1)) = kept
      by_cases hdrop : useEagle = true ∧ kept ≠ []
      · exact ⟨_, if_pos hdrop⟩
      · exact ⟨_, if_neg hdrop⟩
    obtain ⟨rows, hrows⟩ := hok
    exact ⟨rows, hrows, slidingWindow_hit hk hrows⟩
  | mamba mode k =>
    obtain ⟨rows, hrows⟩ := mambaSearch_ok p groupIds spec.blockSize alignment hlen
    exact ⟨rows, hrows, mambaSearch_hit hk (Nat.div_mul_le_self _ _) hrows⟩
  | chunkedLocal c => simp [hk] at hspec
  | crossAttention => simp [hk] at hspec

end search
end TailBlend.CacheHit
