import TailBlend.CacheHitLength

/-! The hits of sliding-window and chunked-local attention: what the next token can see, which
lengths are valid, and when the search returns the longest one. -/
namespace TailBlend.CacheHit
open List

def Sees : SpecKind → Nat → Nat → Prop
  | .slidingWindow w, length, pos => pos < length ∧ length < pos + w
  | .chunkedLocal c, length, pos => length / c * c ≤ pos ∧ pos < length
  | _, length, pos => pos < length

instance (kind : SpecKind) (length pos : Nat) : Decidable (Sees kind length pos) :=
  match kind with
  | .slidingWindow _ | .chunkedLocal _ => inferInstanceAs (Decidable (_ ∧ _))
  | .fullAttention _ | .mamba _ _ | .crossAttention => inferInstanceAs (Decidable (_ < _))

/-- After `n` blocks, the next token attends to a position of block `j`. -/
def SeesBlock (kind : SpecKind) (blockSize n j : Nat) : Prop :=
  ∃ pos, j * blockSize ≤ pos ∧ pos < (j + 1) * blockSize ∧ Sees kind (n * blockSize) pos

def Available (p : BlockPool) (hashes : List (List BlockHash)) (groupIds : List Nat) (j : Nat) :
    Prop :=
  ∃ h row, hashes[j]? = some h ∧ p.getCachedBlock h groupIds = some row

/-- The rows are a valid hit, and no longer aligned length has its blocks cached. -/
structure LongestHit (p : BlockPool) (spec : KVCacheSpec) (hashes : List (List BlockHash))
    (groupIds : List Nat) (maxLength alignment : Nat) (rows : Rows) : Prop where
  width : ∀ row ∈ rows, row.length = groupIds.length
  le : rows.length * spec.blockSize ≤ maxLength
  aligned : alignment ∣ rows.length * spec.blockSize
  hit : ∀ j, SeesBlock spec.kind spec.blockSize rows.length j →
    ∃ h row, hashes[j]? = some h ∧ p.getCachedBlock h groupIds = some row ∧
      rows[j]? = some row ∧ 0 ∉ row
  longest : ∀ n, rows.length < n → n * spec.blockSize ≤ maxLength →
    alignment ∣ n * spec.blockSize →
      ∃ j, SeesBlock spec.kind spec.blockSize n j ∧ ¬ Available p hashes groupIds j

/-- When the search is right. A window of one token sees no earlier block, so the longest aligned
length is valid; the search still wants its last block cached. A chunk that starts inside a block
makes that block needed; the blocks before it are skipped even when it is missing. -/
def Regular (p : BlockPool) (spec : KVCacheSpec) (hashes : List (List BlockHash))
    (groupIds : List Nat) (maxLength alignment : Nat) : Prop :=
  match spec.kind with
  | .slidingWindow w =>
    let n := alignedLength spec.blockSize alignment (maxLength / spec.blockSize)
    1 < w ∨ n = 0 ∨ Available p hashes groupIds (n - 1)
  | .chunkedLocal c =>
    let start := maxLength / c * c / spec.blockSize
    c ∣ start * spec.blockSize ∨
      (start < maxLength / spec.blockSize ∧ Available p hashes groupIds start)
  | _ => True

section
variable {p : BlockPool} {hashes : List (List BlockHash)} {groupIds : List Nat} {rows : Rows}

variable {blockSize alignment n w j i maxLength c : Nat} {spec : KVCacheSpec}

theorem not_available {k : List BlockHash} (hk : hashes[i]? = some k)
    (hmiss : p.getCachedBlock k groupIds = none) : ¬ Available p hashes groupIds i := by
  rintro ⟨h, row, hh, hrow⟩
  cases hk.symm.trans hh
  cases hmiss.symm.trans hrow

theorem le_alignedLength {m : Nat} (hm : m ≤ n) (ha : alignment ∣ m * blockSize) :
    m ≤ alignedLength blockSize alignment n := by
  induction n with
  | zero => omega
  | succ n ih =>
    unfold alignedLength
    split_ifs with h
    · rcases Nat.lt_or_ge m (n + 1) with hlt | hge
      · exact ih (by omega)
      · obtain rfl : m = n + 1 := by omega
        exact absurd (Nat.mod_eq_zero_of_dvd ha) h.2
    · exact hm

theorem seesBlock_sliding_iff (hb : 0 < blockSize) :
    SeesBlock (.slidingWindow w) blockSize n j ↔
      j < n ∧ n ≤ j + (cdiv (w - 1 : Int) blockSize).toNat := by
  constructor
  · rintro ⟨pos, hlo, hhi, hlt, hw⟩
    have hj : j < n := by
      by_contra hge
      have := Nat.mul_le_mul_right blockSize (not_lt.mp hge)
      omega
    exact ⟨hj, needs_sliding hb hj ⟨pos, hlo, hhi, hw⟩⟩
  rintro ⟨hj, hn⟩
  have hlt : ((n - j - 1 : Nat) : Int) < cdiv (w - 1 : Int) blockSize := by omega
  rw [lt_cdiv_iff _ _ hb] at hlt
  have hsum : (n - j - 1) * blockSize + (j + 1) * blockSize = n * blockSize := by
    rw [← Nat.add_mul]
    congr 1
    omega
  have hsucc : (j + 1) * blockSize = j * blockSize + blockSize := Nat.succ_mul j blockSize
  refine ⟨(j + 1) * blockSize - 1, by omega, by omega, ?_, ?_⟩ <;> omega

theorem notMem_of_getCachedBlock (hnull : ∀ key, 0 ∉ p.cachedBlockHashToBlock key)
    {k : List BlockHash} {row : List Nat} (h : p.getCachedBlock k groupIds = some row) :
    0 ∉ row := by
  obtain ⟨hlen, hget⟩ := getCachedBlock_eq_some h
  intro hmem
  obtain ⟨j, hj, hzero⟩ := mem_iff_getElem.mp hmem
  obtain ⟨b, hb, hone⟩ := hget j groupIds[j] (getElem?_eq_getElem (hlen ▸ hj))
  obtain rfl : b = 0 := by
    rw [getElem?_eq_getElem hj, hzero] at hb
    exact (Option.some.inj hb).symm
  exact hnull _ (mem_of_mem_head? hone)

theorem row_of_cachedAt (hgroups : groupIds ≠ []) (hnull : ∀ key, 0 ∉ p.cachedBlockHashToBlock key)
    (hsound : RowsSound p hashes groupIds rows) (h : CachedAt p groupIds rows j) :
    ∃ k row, hashes[j]? = some k ∧ p.getCachedBlock k groupIds = some row ∧
      rows[j]? = some row ∧ 0 ∉ row := by
  obtain ⟨row, k, hrow, hk⟩ := h
  have hzero := notMem_of_getCachedBlock hnull hk
  rcases hsound j row hrow with hnullRow | ⟨k', hk', hcached⟩
  · refine absurd ?_ hzero
    rw [hnullRow, nullRow, mem_replicate]
    exact ⟨fun h => hgroups (length_eq_zero_iff.mp h), rfl⟩
  · exact ⟨k', row, hk', hcached, hrow, hzero⟩

def Lacks (p : BlockPool) (hashes : List (List BlockHash)) (groupIds : List Nat)
    (needed n : Nat) : Prop :=
  ∃ j, j < n ∧ n ≤ j + needed ∧ ¬ Available p hashes groupIds j

/-- The search from the right leaves only lengths behind that lack a block. The invariant is about
the lengths beyond the end of the current run. -/
theorem slidingSearch_longest {needed run limit : Nat} {computed : Rows} {run' : Nat} {found : Bool}
    (hlen : i + run ≤ computed.length) (hneeded : run < needed)
    (hinv : ∀ n, i + run < n → n ≤ limit → alignment ∣ n * blockSize →
      Lacks p hashes groupIds needed n)
    (he : slidingSearch p hashes groupIds blockSize false alignment needed i computed run =
      .ok (rows, run', found)) :
    ∀ n, (if found then rows.length else run') < n → n ≤ limit → alignment ∣ n * blockSize →
      Lacks p hashes groupIds needed n := by
  fun_induction slidingSearch with
  | case1 =>
    cases he
    simpa using hinv
  | case2 => cases he
  | case3 i computed run k hk row hrow hskip ih =>
    obtain ⟨rfl, -, hmod⟩ := hskip
    refine ih (by omega) hneeded (fun n hn hle ha => ?_) he
    have hne : n ≠ i + 1 := by
      rintro rfl
      exact hmod (Nat.mod_eq_zero_of_dvd ha)
    exact hinv n (by omega) hle ha
  | case4 i computed run k hk row hrow hskip hstop =>
    cases he
    intro n hn hle ha
    rw [if_pos rfl, length_take, length_set] at hn
    exact hinv n (by omega) hle ha
  | case5 i computed run k hk row hrow hskip hstop ih =>
    exact ih (by rw [length_set]; omega) (by omega)
      (fun n hn hle ha => hinv n (by omega) hle ha) he
  | case6 i computed run k hk hmiss ih =>
    refine ih (by omega) (by omega) (fun n hn hle ha => ?_) he
    rcases Nat.lt_or_ge (i + 1 + run) n with hlt | hge
    · exact hinv n hlt hle ha
    -- block `i` is missing, and the run that ends here is shorter than the window
    exact ⟨i, by omega, by omega, not_available hk hmiss⟩

theorem slidingWindow_length
    (he : slidingWindow p hashes maxLength groupIds blockSize w false alignment = .ok rows) :
    ∃ computed run found, slidingSearch p hashes groupIds blockSize false alignment
        (cdiv (w - 1 : Int) blockSize).toNat (maxLength / blockSize)
        (replicate (maxLength / blockSize) (nullRow groupIds)) 0 = .ok (computed, run, found) ∧
      rows.length = if found then computed.length else run := by
  unfold slidingWindow at he
  rw [seq_ok_iff] at he
  obtain ⟨⟨computed, run, found⟩, hs, he⟩ := he
  refine ⟨computed, run, found, hs, ?_⟩
  have hstart : Run p groupIds blockSize false alignment
      (replicate (maxLength / blockSize) (nullRow groupIds)) (maxLength / blockSize + 0) 0 :=
    ⟨fun j h1 h2 => by omega, fun h => by omega⟩
  obtain ⟨-, hrun, -, hmiss⟩ := slidingSearch_spec (by simp) hstart hs
  rw [← Except.ok.inj he]
  cases found with
  | true => rfl
  | false =>
    have hend := (hmiss rfl).aligned
    simp only [Bool.false_eq_true, if_false] at hend ⊢
    rw [popUnaligned_length, length_take, min_eq_left hrun]
    rcases Nat.eq_zero_or_pos run with rfl | hpos
    · rfl
    · exact alignedLength_of_dvd (hend hpos)

theorem width_of_sound (h : RowsSound p hashes groupIds rows) :
    ∀ row ∈ rows, row.length = groupIds.length := by
  intro row hrow
  obtain ⟨j, hj, rfl⟩ := mem_iff_getElem.mp hrow
  rcases h j _ (getElem?_eq_getElem hj) with hnull | ⟨k, -, hk⟩
  · rw [hnull, nullRow, length_replicate]
  · exact (getCachedBlock_eq_some hk).1

theorem slidingWindow_longestHit_iff (hk : spec.kind = .slidingWindow w) (hgroups : groupIds ≠ [])
    (hnull : ∀ key, 0 ∉ p.cachedBlockHashToBlock key)
    (he : slidingWindow p hashes maxLength groupIds spec.blockSize w false alignment = .ok rows) :
    LongestHit p spec hashes groupIds maxLength alignment rows ↔
      ∀ n, rows.length < n → n ≤ maxLength / spec.blockSize → alignment ∣ n * spec.blockSize →
        Lacks p hashes groupIds (cdiv (w - 1 : Int) spec.blockSize).toNat n := by
  have hsound := slidingWindow_sound he
  have hhit := slidingWindow_hit hk he
  have hdiv : ∀ n, n * spec.blockSize ≤ maxLength ↔ n ≤ maxLength / spec.blockSize :=
    fun n => (Nat.le_div_iff_mul_le spec.blockSize_pos).symm
  constructor
  · intro h n hn hle ha
    obtain ⟨j, hsees, hmiss⟩ := h.longest n hn ((hdiv n).mpr hle) ha
    rw [hk, seesBlock_sliding_iff spec.blockSize_pos] at hsees
    exact ⟨j, hsees.1, hsees.2, hmiss⟩
  intro h
  refine ⟨width_of_sound hsound, hhit.le, hhit.aligned, fun j hj => ?_, fun n hn hle ha => ?_⟩
  · have hcached : CachedAt p groupIds rows j := by
      rw [hk] at hj
      have hlt := ((seesBlock_sliding_iff spec.blockSize_pos).mp hj).1
      obtain ⟨pos, hlo, hhi, -, hw⟩ := hj
      exact hhit.needed j hlt (by
        rw [hk]
        exact ⟨pos, hlo, hhi, hw⟩)
    exact row_of_cachedAt hgroups hnull hsound hcached
  · obtain ⟨j, hlt, hn', hmiss⟩ := h n hn ((hdiv n).mp hle) ha
    refine ⟨j, ?_, hmiss⟩
    rw [hk, seesBlock_sliding_iff spec.blockSize_pos]
    exact ⟨hlt, hn'⟩

theorem slidingSearch_single {computed : Rows} {run run' : Nat} {found : Bool} (hrun : run = 0)
    (hlen : i ≤ computed.length)
    (he : slidingSearch p hashes groupIds blockSize false alignment 0 i computed run =
      .ok (rows, run', found)) :
    (found = true → 0 < rows.length ∧ Available p hashes groupIds (rows.length - 1)) ∧
      (found = false → run' = 0) ∧
      ∀ n, (if found then rows.length else run') < n → n ≤ i → alignment ∣ n * blockSize →
        ¬ Available p hashes groupIds (n - 1) := by
  fun_induction slidingSearch with
  | case1 =>
    cases he
    exact ⟨by simp, fun _ => hrun, fun n hn hle => by simp at hn; omega⟩
  | case2 => cases he
  | case3 i computed run k hk row hrow hskip ih =>
    obtain ⟨h1, h2, h3⟩ := ih hrun (by omega) he
    refine ⟨h1, h2, fun n hn hle ha => h3 n hn ?_ ha⟩
    have hne : n ≠ i + 1 := by
      rintro rfl
      exact hskip.2.2 (Nat.mod_eq_zero_of_dvd ha)
    omega
  | case4 i computed run k hk row hrow =>
    cases he
    subst hrun
    rw [length_take, length_set, min_eq_left hlen]
    exact ⟨fun _ => ⟨by omega, k, row, hk, hrow⟩, by simp, fun n hn hle => by simp at hn; omega⟩
  | case5 => omega
  | case6 i computed run k hk hmiss ih =>
    obtain ⟨h1, h2, h3⟩ := ih rfl (by omega) he
    refine ⟨h1, h2, fun n hn hle ha => ?_⟩
    rcases Nat.lt_or_ge i n with hlt | hge
    · obtain rfl : n = i + 1 := by omega
      exact not_available hk hmiss
    · exact h3 n hn hge ha

theorem slidingWindow_regular (hk : spec.kind = .slidingWindow w) (hgroups : groupIds ≠ [])
    (hnull : ∀ key, 0 ∉ p.cachedBlockHashToBlock key)
    (he : slidingWindow p hashes maxLength groupIds spec.blockSize w false alignment = .ok rows) :
    LongestHit p spec hashes groupIds maxLength alignment rows ↔
      Regular p spec hashes groupIds maxLength alignment := by
  obtain ⟨computed, run, found, hs, hlen⟩ := slidingWindow_length he
  have hhit := slidingWindow_hit hk he
  rw [slidingWindow_longestHit_iff hk hgroups hnull he]
  simp only [Regular, hk]
  set limit := maxLength / spec.blockSize with hlimit
  set n0 := alignedLength spec.blockSize alignment limit with hn0
  rw [hlen]
  rcases Nat.lt_or_ge 1 w with hw | hw
  · refine ⟨fun _ => .inl hw, fun _ => ?_⟩
    have hpos : 0 < cdiv (w - 1 : Int) spec.blockSize := cdiv_pos (by omega) spec.blockSize_pos
    exact slidingSearch_longest (by simp) (by omega) (fun n hn hle => by omega) hs
  have hvalid := spec.kind_valid
  rw [hk] at hvalid
  obtain rfl : w = 1 := le_antisymm hw hvalid
  have hneeded : (cdiv (((1 : Nat) : Int) - 1) spec.blockSize).toNat = 0 := by simp [cdiv]
  rw [hneeded] at hs ⊢
  obtain ⟨hfound, hmiss, hlast⟩ := slidingSearch_single rfl (by simp) hs
  have hle0 : rows.length ≤ n0 :=
    le_alignedLength ((Nat.le_div_iff_mul_le spec.blockSize_pos).mpr hhit.le) hhit.aligned
  have halign0 : alignment ∣ n0 * spec.blockSize := dvd_alignedLength _ _ _
  have hlimit0 : n0 ≤ limit := alignedLength_le _ _ _
  have hlacks : ∀ n, ¬ Lacks p hashes groupIds 0 n := by
    rintro n ⟨j, hj, hn, -⟩
    omega
  rw [hlen] at hle0
  constructor
  · intro h
    have hge : n0 ≤ if found = true then computed.length else run := by
      by_contra hlt
      exact hlacks n0 (h n0 (by omega) hlimit0 halign0)
    refine .inr ?_
    cases found with
    | true =>
      obtain ⟨-, havail⟩ := hfound rfl
      have heq : n0 = computed.length := le_antisymm hge hle0
      rw [heq]
      exact .inr havail
    | false =>
      have hzero : run = 0 := hmiss rfl
      exact .inl (by simpa [hzero] using hge)
  · intro h n hn hle ha
    have hn' : n ≤ n0 := le_alignedLength hle ha
    rcases h with h | h | h
    · omega
    · omega
    · exact absurd h (hlast n0 (by omega) hlimit0 halign0)

theorem chunk_start_eq {length : Nat} (hc : 0 < c) (hlo : maxLength / c * c ≤ length)
    (hle : length ≤ maxLength) : length / c * c = maxLength / c * c := by
  have hge : maxLength / c ≤ length / c := (Nat.le_div_iff_mul_le hc).mpr hlo
  have hle' : length / c ≤ maxLength / c := Nat.div_le_div_right hle
  rw [le_antisymm hle' hge]

theorem scanFrom_spec (he : scanFrom p hashes groupIds n i = .ok rows) :
    rows.length ≤ n ∧ (rows.length < n → ¬ Available p hashes groupIds (i + rows.length)) := by
  fun_induction scanFrom generalizing rows with
  | case1 =>
    cases he
    simp
  | case2 => cases he
  | case3 n i k hk row hr ih =>
    rw [seq_ok_iff] at he
    obtain ⟨rest, hrest, he⟩ := he
    cases he
    obtain ⟨hle, hmiss⟩ := ih hrest
    rw [length_cons]
    refine ⟨by omega, fun hlt => ?_⟩
    rw [show i + (rest.length + 1) = i + 1 + rest.length by omega]
    exact hmiss (by omega)
  | case4 n i k hk hmiss =>
    cases he
    exact ⟨Nat.zero_le _, fun _ => not_available hk hmiss⟩

theorem scanFrom_ok (p : BlockPool) (groupIds : List Nat) (h : i + n ≤ hashes.length) :
    ∃ rows, scanFrom p hashes groupIds n i = .ok rows := by
  induction n generalizing i with
  | zero => exact ⟨[], rfl⟩
  | succ n ih =>
    unfold scanFrom
    rw [getElem?_eq_getElem (by omega)]
    simp only
    split
    · obtain ⟨rest, hrest⟩ := ih (i := i + 1) (by omega)
      rw [hrest]
      exact ⟨_, rfl⟩
    · exact ⟨[], rfl⟩

theorem seesBlock_chunked_iff (hb : 0 < blockSize) (hc : 0 < c)
    (hlo : maxLength / c * c / blockSize < n) (hle : n * blockSize ≤ maxLength) :
    SeesBlock (.chunkedLocal c) blockSize n j ↔ maxLength / c * c / blockSize ≤ j ∧ j < n := by
  set first := maxLength / c * c with hfirst
  have hstart : first < n * blockSize := (Nat.div_lt_iff_lt_mul hb).mp hlo
  have hchunk : n * blockSize / c * c = first := chunk_start_eq hc hstart.le hle
  simp only [SeesBlock, Sees, hchunk]
  constructor
  · rintro ⟨pos, hj, hj', hpos, hlt⟩
    refine ⟨Nat.lt_succ_iff.mp ((Nat.div_lt_iff_lt_mul hb).mpr (lt_of_le_of_lt hpos hj')), ?_⟩
    exact Nat.lt_of_mul_lt_mul_right (lt_of_le_of_lt hj hlt)
  rintro ⟨hj, hlt⟩
  have hnext : (j + 1) * blockSize ≤ n * blockSize := Nat.mul_le_mul_right _ hlt
  have hsucc : (j + 1) * blockSize = j * blockSize + blockSize := Nat.succ_mul j blockSize
  have hfirst' : first < (j + 1) * blockSize :=
    (Nat.div_lt_iff_lt_mul hb).mp (Nat.lt_succ_iff.mpr hj)
  exact ⟨max first (j * blockSize), le_max_right _ _, by omega, le_max_left _ _, by omega⟩

theorem chunkedLocal_regular (hk : spec.kind = .chunkedLocal c) (hgroups : groupIds ≠ [])
    (hnull : ∀ key, 0 ∉ p.cachedBlockHashToBlock key)
    (he : chunkedLocal p hashes maxLength groupIds spec.blockSize c false spec.blockSize = .ok rows)
    :
    LongestHit p spec hashes groupIds maxLength spec.blockSize rows ↔
      Regular p spec hashes groupIds maxLength spec.blockSize := by
  have hb := spec.blockSize_pos
  have hc : 0 < c := by
    have hvalid := spec.kind_valid
    rwa [hk] at hvalid
  unfold chunkedLocal at he
  simp only [seq_ok_iff, pyAssert_eq_ok, exists_const, true_and] at he
  obtain ⟨hits, hscan, he⟩ := he
  obtain ⟨hle, hmiss⟩ := scanFrom_spec hscan
  have hhits := scanFrom_sound hscan
  set start := maxLength / c * c / spec.blockSize with hstart
  have hlimit : start ≤ maxLength / spec.blockSize := Nat.div_le_div_right (Nat.div_mul_le_self _ _)
  obtain rfl : replicate start (nullRow groupIds) ++ hits = rows := Except.ok.inj he
  have hlen : (replicate start (nullRow groupIds) ++ hits).length = start + hits.length := by
    simp
  have hdiv : ∀ n, n * spec.blockSize ≤ maxLength ↔ n ≤ maxLength / spec.blockSize :=
    fun n => (Nat.le_div_iff_mul_le hb).symm
  simp only [Regular, hk, ← hstart]
  constructor
  · intro h
    rcases Nat.eq_zero_or_pos hits.length with hzero | hpos
    · refine .inl ?_
      by_contra hndvd
      -- the chunk of the next token starts before `start`, in a block that is a null block
      have hlt : start * spec.blockSize / c * c < start * spec.blockSize := by
        refine lt_of_le_of_ne (Nat.div_mul_le_self _ _) fun heq => hndvd ?_
        exact Nat.dvd_of_mod_eq_zero (by
          have := Nat.div_add_mod' (start * spec.blockSize) c
          omega)
      set pos := start * spec.blockSize / c * c with hpos
      have hj : pos / spec.blockSize < start := (Nat.div_lt_iff_lt_mul hb).mpr hlt
      have hsees : SeesBlock (.chunkedLocal c) spec.blockSize start (pos / spec.blockSize) :=
        ⟨pos, Nat.div_mul_le_self _ _, (Nat.div_lt_iff_lt_mul hb).mp (Nat.lt_succ_self _), le_rfl,
          hlt⟩
      obtain ⟨-, row, -, -, hrow, hnot⟩ := h.hit (pos / spec.blockSize) (by
        rw [hlen, hzero, hk]
        exact hsees)
      rw [getElem?_append_left (by simpa using hj), getElem?_replicate, if_pos hj] at hrow
      rw [← Option.some.inj hrow, nullRow, mem_replicate] at hnot
      exact hnot ⟨fun hz => hgroups (length_eq_zero_iff.mp hz), rfl⟩
    · obtain ⟨k, hk', hrow⟩ := hhits 0 hits[0] (getElem?_eq_getElem hpos)
      exact .inr ⟨by omega, k, hits[0], hk', hrow⟩
  · intro h
    have hn : start + hits.length ≤ maxLength / spec.blockSize := by omega
    refine ⟨width_of_sound (rowsSound_append_null hhits), ?_, ?_, fun j hj => ?_, ?_⟩
    · rw [hlen]
      exact (hdiv _).mpr hn
    · exact Nat.dvd_mul_left _ _
    · rw [hlen, hk] at hj
      rcases Nat.eq_zero_or_pos hits.length with hzero | hpos
      · rcases h with hdvd | ⟨hlt, havail⟩
        · obtain ⟨pos, -, -, hlo, hhi⟩ := hj
          rw [hzero, Nat.add_zero, Nat.div_mul_cancel hdvd] at hlo
          rw [hzero, Nat.add_zero] at hhi
          omega
        · exact absurd havail (by simpa [hzero] using hmiss (by omega))
      rw [seesBlock_chunked_iff hb hc (by omega) ((hdiv _).mpr hn)] at hj
      obtain ⟨i, rfl⟩ : ∃ i, j = start + i := ⟨j - start, by omega⟩
      have hi : i < hits.length := by omega
      obtain ⟨k, hkey, hrow⟩ := hhits i hits[i] (getElem?_eq_getElem hi)
      refine ⟨k, hits[i], hkey, hrow, ?_, notMem_of_getCachedBlock hnull hrow⟩
      simp [hi]
    · intro n hlt hnle _
      refine ⟨start + hits.length, ?_, hmiss (by have := (hdiv n).mp hnle; omega)⟩
      rw [hk, seesBlock_chunked_iff hb hc (by omega) hnle]
      omega

/-- The search of either kind, without EAGLE, finds the longest valid hit exactly when the lengths
are regular. -/
theorem findLongestCacheHit_longest_iff (p : BlockPool) (spec : KVCacheSpec)
    (hashes : List (List BlockHash)) (maxLength : Nat) (groupIds : List Nat) (alignment : Nat)
    (hkind : (∃ w, spec.kind = .slidingWindow w) ∨
      ((∃ c, spec.kind = .chunkedLocal c) ∧ spec.blockSize = alignment))
    (hgroups : groupIds ≠ []) (hnull : ∀ key, 0 ∉ p.cachedBlockHashToBlock key)
    (hlen : maxLength / spec.blockSize ≤ hashes.length) :
    (∃ rows, findLongestCacheHit p spec hashes maxLength groupIds false alignment = .ok rows ∧
        LongestHit p spec hashes groupIds maxLength alignment rows) ↔
      Regular p spec hashes groupIds maxLength alignment := by
  have hok : ∃ rows, findLongestCacheHit p spec hashes maxLength groupIds false alignment =
      .ok rows ∧ (LongestHit p spec hashes groupIds maxLength alignment rows ↔
        Regular p spec hashes groupIds maxLength alignment) := by
    rcases hkind with ⟨w, hw⟩ | ⟨⟨c, hc⟩, rfl⟩
    · obtain ⟨rows, hrows, -⟩ := findLongestCacheHit_hit p groupIds false alignment
        (show Searchable spec by rw [Searchable, hw]; trivial) hlen
      refine ⟨rows, hrows, slidingWindow_regular hw hgroups hnull ?_⟩
      rwa [findLongestCacheHit, hw] at hrows
    have hstart : maxLength / c * c / spec.blockSize ≤ maxLength / spec.blockSize :=
      Nat.div_le_div_right (Nat.div_mul_le_self _ _)
    have hend : maxLength / c * c / spec.blockSize +
        (maxLength / spec.blockSize - maxLength / c * c / spec.blockSize) ≤ hashes.length := by
      omega
    obtain ⟨hits, hhits⟩ := scanFrom_ok p groupIds hend
    have hrows : chunkedLocal p hashes maxLength groupIds spec.blockSize c false spec.blockSize =
        .ok (replicate (maxLength / c * c / spec.blockSize) (nullRow groupIds) ++ hits) := by
      simp only [chunkedLocal, seq_ok_iff, pyAssert_eq_ok, exists_const, true_and]
      exact ⟨hits, hhits, rfl⟩
    refine ⟨_, ?_, chunkedLocal_regular hc hgroups hnull hrows⟩
    rw [findLongestCacheHit, hc]
    exact hrows
  obtain ⟨rows, hrows, hiff⟩ := hok
  rw [← hiff]
  constructor
  · rintro ⟨rows', hrows', h⟩
    obtain rfl : rows = rows' := Except.ok.inj (hrows.symm.trans hrows')
    exact h
  · exact fun h => ⟨rows, hrows, h⟩

end

def evenSpec (kind : SpecKind) (h : kind.Valid) : KVCacheSpec where
  kind := kind
  blockSize := 2
  layout := ⟨1, 1, 0, none, 0⟩
  blockSize_pos := Nat.two_pos
  kind_valid := h

def evenHashes : List (List BlockHash) :=
  (BlockHash.uniform [7, 8] 3 .noneHash).map (fun h => [h])

/-- A window of four tokens, and the first two of three blocks cached. -/
theorem findLongestCacheHit_longest_window :
    ∃ rows, findLongestCacheHit
        (((BlockPool.init 10 true 2 false).register (evenHashes[0], 0) 1).register (evenHashes[1], 0) 2)
        (evenSpec (.slidingWindow 4) (by decide)) evenHashes 6 [0] false 2 = .ok rows ∧
      LongestHit
        (((BlockPool.init 10 true 2 false).register (evenHashes[0], 0) 1).register (evenHashes[1], 0) 2)
        (evenSpec (.slidingWindow 4) (by decide)) evenHashes [0] 6 2 rows := by
  refine (findLongestCacheHit_longest_iff _ (evenSpec (.slidingWindow 4) (by decide)) evenHashes 6
    [0] 2 (.inl ⟨4, rfl⟩) (by decide) ?_ (by decide)).mpr (.inl (by decide))
  exact BlockPool.notMem_register (BlockPool.notMem_register (by simp [BlockPool.init]) _
    (by decide)) _ (by decide)

/-- Chunks of three tokens, nothing cached: the search for four tokens skips block 0, which the
token at position 2 sees. -/
theorem chunkedLocal_skips_seen_block : ¬ ∀ (p : BlockPool) (spec : KVCacheSpec)
    (hashes : List (List BlockHash)) (maxLength : Nat) (groupIds : List Nat) (alignment : Nat),
    ((∃ w, spec.kind = .slidingWindow w) ∨
      ((∃ c, spec.kind = .chunkedLocal c) ∧ spec.blockSize = alignment)) →
    groupIds ≠ [] → (∀ key, 0 ∉ p.cachedBlockHashToBlock key) →
    maxLength / spec.blockSize ≤ hashes.length →
    ∃ rows, findLongestCacheHit p spec hashes maxLength groupIds false alignment = .ok rows ∧
      LongestHit p spec hashes groupIds maxLength alignment rows := by
  intro hall
  obtain ⟨rows, hrows, hhit⟩ := hall (BlockPool.init 10 true 2 false)
    (evenSpec (.chunkedLocal 3) (by decide)) evenHashes 4 [0] 2 (.inr ⟨⟨3, rfl⟩, rfl⟩)
    (by decide) (by simp [BlockPool.init]) (by decide)
  obtain rfl : [[0]] = rows := Except.ok.inj (Eq.trans (by decide) hrows)
  obtain ⟨h, row, -, -, hrow, hzero⟩ := hhit.hit 0 ⟨0, by decide⟩
  obtain rfl : [0] = row := Option.some.inj hrow
  exact hzero (by decide)

end TailBlend.CacheHit
