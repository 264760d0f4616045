import TailBlend.OffloadLookup

/-! What the lookup of the offloading connector finds: every pass keeps the blocks it has confirmed,
the passes end, and the hit can be loaded when no group's length splits another group's window. -/
namespace TailBlend
open List
variable {κ : Type}

def Ready (lookup : κ → Option Bool) (keys : List κ) (j : Nat) : Prop :=
  ∃ key, keys[j]? = some key ∧ lookup key = some true

variable {lookup : κ → Option Bool} {keys : List κ} {n : Nat} {w : Nat}

theorem Ready.of_slice {numBlocks start j : Nat}
    (h : Ready lookup ((keys.take numBlocks).drop start) j) : Ready lookup keys (start + j) := by
  obtain ⟨key, hkey, hready⟩ := h
  rw [getElem?_drop, getElem?_take] at hkey
  split_ifs at hkey
  · exact ⟨key, hkey, hready⟩

theorem maximalPrefixLookup_some {count : Nat} {deferred : Bool}
    (h : maximalPrefixLookup lookup keys count deferred = some n) :
    deferred = false ∧ count ≤ n ∧ n ≤ count + keys.length ∧
      ∀ j, count + j < n → Ready lookup keys j := by
  induction keys generalizing count deferred with
  | nil =>
    cases deferred with
    | true => simp [maximalPrefixLookup] at h
    | false =>
      obtain rfl : count = n := by simpa [maximalPrefixLookup] using h
      exact ⟨rfl, le_rfl, by simp, fun j hj => by omega⟩
  | cons key keys ih =>
    rw [maximalPrefixLookup] at h
    cases hkey : lookup key with
    | none =>
      simp only [hkey] at h
      exact absurd (ih h).1 (by simp)
    | some answer =>
      cases answer with
      | true =>
        simp only [hkey] at h
        obtain ⟨hd, hlo, hhi, hready⟩ := ih h
        refine ⟨hd, by omega, by simp only [length_cons]; omega, fun j hj => ?_⟩
        cases j with
        | zero => exact ⟨key, rfl, hkey⟩
        | succ j => simpa [Ready] using hready j (by omega)
      | false =>
        simp only [hkey] at h
        cases deferred with
        | true => simp at h
        | false =>
          obtain rfl : count = n := by simpa using h
          exact ⟨rfl, le_rfl, by omega, fun j hj => by omega⟩

theorem slidingWindowLookup_some {rest tail : List κ} {deferred : Bool} {run : Nat}
    (hlen : run ≤ tail.length) (hrun : ∀ j, j < run → Ready lookup tail j)
    (h : slidingWindowLookup lookup w rest deferred run = some n) :
    deferred = false ∧ n ≤ (rest.reverse ++ tail).length ∧
      ∃ r, r ≤ n ∧ (r = w ∨ r = n) ∧
        ∀ j, n ≤ j + r → j < n → Ready lookup (rest.reverse ++ tail) j := by
  induction rest generalizing tail deferred run with
  | nil =>
    cases deferred with
    | true => simp [slidingWindowLookup] at h
    | false =>
      obtain rfl : run = n := by simpa [slidingWindowLookup] using h
      exact ⟨rfl, hlen, run, le_rfl, .inr rfl, fun j _ hj => by
        simpa using hrun j hj⟩
  | cons key rest ih =>
    have happend : (key :: rest).reverse ++ tail = rest.reverse ++ (key :: tail) := by simp
    rw [happend]
    rw [slidingWindowLookup] at h
    cases hkey : lookup key with
    | none =>
      simp only [hkey] at h
      obtain ⟨hfalse, -⟩ := ih (Nat.zero_le tail.length) (fun j hj => by omega) h
      exact absurd hfalse (by simp)
    | some answer =>
      cases answer with
      | false =>
        simp only [hkey] at h
        exact ih (Nat.zero_le _) (fun j hj => by omega) h
      | true =>
        simp only [hkey] at h
        have hnext : ∀ j, j < run + 1 → Ready lookup (key :: tail) j := by
          intro j hj
          cases j with
          | zero => exact ⟨key, rfl, hkey⟩
          | succ j => simpa [Ready] using hrun j (by omega)
        by_cases hw : run + 1 = w
        · rw [if_pos hw] at h
          cases deferred with
          | true => simp at h
          | false =>
            obtain rfl : rest.length + w = n := by simpa using h
            refine ⟨rfl, ?_, w, by omega, Or.inl rfl, fun j hlo hhi => ?_⟩
            · simp only [length_append, length_reverse, length_cons]
              omega
            obtain ⟨i, rfl⟩ : ∃ i, j = rest.length + i := ⟨j - rest.length, by omega⟩
            obtain ⟨k, hk, hready⟩ := hnext i (by omega)
            refine ⟨k, ?_, hready⟩
            rw [getElem?_append_right (by simp)]
            simpa using hk
        · rw [if_neg hw] at h
          exact ih (by simp only [length_cons]; omega) hnext h

theorem maximalPrefixLookup_eq (hn : n ≤ keys.length)
    (hready : ∀ j key, keys[j]? = some key → j ≤ n → lookup key = some (decide (j < n)))
    (count : Nat) : maximalPrefixLookup lookup keys count false = some (count + n) := by
  induction keys generalizing n count with
  | nil =>
    obtain rfl : n = 0 := by simpa using hn
    rfl
  | cons key keys ih =>
    have hkey := hready 0 key rfl (Nat.zero_le _)
    cases n with
    | zero => simp [maximalPrefixLookup, hkey]
    | succ n =>
      simp only [Nat.zero_lt_succ, decide_true] at hkey
      simp only [maximalPrefixLookup, hkey]
      rw [ih (by simpa using hn) (fun j k hk hj => ?_) (count + 1)]
      · congr 1
        omega
      · have := hready (j + 1) k hk (by omega)
        simpa using this

theorem slidingWindowLookup_eq {rest : List κ} {run : Nat} (hw : 0 < w)
    (hready : ∀ j key, rest.reverse[j]? = some key → n ≤ j + w → lookup key = some (decide (j < n)))
    (hrun : run = n - rest.length) (hlt : run < w) :
    slidingWindowLookup lookup w rest false run = some n := by
  induction rest generalizing run with
  | nil => simp [slidingWindowLookup, hrun]
  | cons key rest ih =>
    rw [length_cons] at hrun
    have hlast : (key :: rest).reverse[rest.length]? = some key := by simp
    have hprefix : ∀ j k, rest.reverse[j]? = some k → n ≤ j + w →
        lookup k = some (decide (j < n)) := by
      intro j k hk hj
      refine hready j k ?_ hj
      have hjlt : j < rest.reverse.length := by
        by_contra hge
        rw [getElem?_eq_none (not_lt.mp hge)] at hk
        exact absurd hk (by simp)
      rw [reverse_cons, getElem?_append_left hjlt, hk]
    have hkey := hready rest.length key hlast (by omega)
    rw [slidingWindowLookup, hkey]
    by_cases hn : rest.length < n
    · simp only [hn, decide_true]
      by_cases hend : run + 1 = w
      · rw [if_pos hend]
        simp only [Bool.false_eq_true, if_false, Option.some.injEq]
        omega
      · rw [if_neg hend]
        refine ih hprefix ?_ ?_ <;> omega
    · simp only [hn]
      refine ih hprefix ?_ hw
      omega

namespace LookupInput

/-- Group `i` has its keys; `window` is its window in tokens, `none` for full attention. -/
structure GroupKeyed (q : LookupInput κ) (window : Option Nat) (i : Nat) (g : GroupOffloadConfig)
    (keys : List κ) : Prop where
  pos : 0 < g.offloadedBlockSize
  idx : g.groupIdx = i
  length : keys.length = q.numTokens / g.offloadedBlockSize
  blocks : g.slidingWindowSizeInBlocks =
    window.map (fun w : Nat => (cdiv w g.offloadedBlockSize).toNat)
  window_pos : ∀ w, window = some w → 0 < w

def Keyed (q : LookupInput κ) (window : Nat → Option Nat) : Prop :=
  ∀ i g keys, q.groups[i]? = some (g, keys) → q.GroupKeyed (window i) i g keys

/-- The manager holds the blocks up to `length`, or the last `cdiv(window, block_size)` of them, that
are not computed locally. -/
def Confirmed (q : LookupInput κ) (window : Option Nat) (blockSize : Nat) (keys : List κ)
    (length : Int) : Prop :=
  ∀ j : Nat, q.numComputedTokens / blockSize ≤ j → (j : Int) < cdiv length blockSize →
    (∀ w : Nat, window = some w → cdiv length blockSize ≤ j + cdiv w blockSize) →
      Ready q.lookup keys j

/-- The manager holds every block with a position that the token at position `length` needs and
that is not computed locally. -/
def Loadable (q : LookupInput κ) (window : Option Nat) (blockSize : Nat) (keys : List κ)
    (length : Int) : Prop :=
  ∀ j pos : Nat, j * blockSize ≤ pos → pos < (j + 1) * blockSize → q.numComputedTokens ≤ pos →
    (pos : Int) < length → (∀ w, window = some w → length < pos + w) → Ready q.lookup keys j

/-- The window of the token at position `length` does not start before the last
`cdiv(window, block_size)` blocks. -/
def Reached (window blockSize : Nat) (length : Int) : Prop :=
  length % blockSize = 0 ∨ (window - 1 : Int) % blockSize ≤ length % blockSize

theorem cdiv_eq_div_add_one (a : Int) {b : Nat} (hb : 0 < b) : cdiv a b = (a - 1) / b + 1 := by
  have hb' : (0 : Int) < b := by exact_mod_cast hb
  have hlo := Int.ediv_mul_le (a - 1) hb'.ne'
  have hhi := Int.lt_ediv_add_one_mul_self (a - 1) hb'
  refine le_antisymm ((cdiv_le_iff _ _ hb).mpr (by omega)) ?_
  exact Int.add_one_le_of_lt ((lt_cdiv_iff _ _ hb).mpr (by omega))

variable {length : Int}

theorem le_block {window blockSize j pos : Nat} (hb : 0 < blockSize)
    (hreached : Reached window blockSize length) (hhi : pos < (j + 1) * blockSize)
    (hwindow : length < pos + window) :
    cdiv length blockSize ≤ j + cdiv window blockSize := by
  have hb' : (0 : Int) < blockSize := by exact_mod_cast hb
  rw [cdiv_le_iff _ _ hb, cdiv_eq_div_add_one _ hb]
  by_contra hlt
  -- `length` is then less than a block past the end of that range, by less than the window's rest
  set k : Int := (window - 1 : Int) / blockSize with hk
  have hdecomp : (window - 1 : Int) % blockSize + blockSize * k = window - 1 :=
    Int.emod_add_mul_ediv _ _
  have hpos : (pos : Int) < (j + 1) * blockSize := by exact_mod_cast hhi
  have hexpand : (j + (k + 1)) * (blockSize : Int) = (j + 1) * blockSize + blockSize * k := by ring
  set rest : Int := length - ((j + 1) * blockSize + blockSize * k) with hrest
  have hmod : length % blockSize = rest := by
    have hlength : length = rest + blockSize * (j + 1 + k) := by
      ring
    have hsmall := Int.emod_lt_of_pos (window - 1 : Int) hb'
    rw [hlength, Int.add_mul_emod_self_left]
    exact Int.emod_eq_of_lt (by omega) (by omega)
  rcases hreached with hzero | hle
  · omega
  · omega

section group
variable {q : LookupInput κ} {window : Option Nat} {i : Nat} {g : GroupOffloadConfig}
  {keys : List κ}

theorem numHitBlocks_ready (hg : q.GroupKeyed window i g keys) {maxHit : Int} {n : Nat}
    (h : q.numHitBlocks g keys maxHit = some n) :
    (n = 0 ∨ q.numComputedTokens / g.offloadedBlockSize + n ≤
        (cdiv maxHit g.offloadedBlockSize).toNat) ∧
      ∀ j, q.numComputedTokens / g.offloadedBlockSize ≤ j →
        j < q.numComputedTokens / g.offloadedBlockSize + n →
        (∀ w, window = some w → q.numComputedTokens / g.offloadedBlockSize + n ≤
          j + (cdiv w g.offloadedBlockSize).toNat) → Ready q.lookup keys j := by
  set start := q.numComputedTokens / g.offloadedBlockSize with hstart
  set limit := min (cdiv maxHit g.offloadedBlockSize).toNat keys.length with hlimit
  set slice := (keys.take limit).drop start with hslice
  have hlen : slice.length ≤ (cdiv maxHit g.offloadedBlockSize).toNat - start := by
    rw [length_drop, length_take]
    omega
  unfold numHitBlocks at h
  simp only [← hstart, ← hlimit, ← hslice] at h
  cases hw : window with
  | none =>
    have hblocks : g.slidingWindowSizeInBlocks = none := by rw [hg.blocks, hw, Option.map_none]
    simp only [hblocks] at h
    obtain ⟨-, -, hle, hready⟩ := maximalPrefixLookup_some h
    refine ⟨by omega, fun j hlo hhi _ => ?_⟩
    obtain ⟨k, rfl⟩ : ∃ k, j = start + k := ⟨j - start, by omega⟩
    exact (hready k (by omega)).of_slice
  | some w =>
    have hblocks : g.slidingWindowSizeInBlocks = some (cdiv w g.offloadedBlockSize).toNat := by
      rw [hg.blocks, hw, Option.map_some]
    simp only [hblocks] at h
    obtain ⟨-, hle, r, hr, hcase, hready⟩ :=
      slidingWindowLookup_some (Nat.zero_le ([] : List κ).length) (fun j hj => by omega) h
    rw [reverse_reverse, append_nil] at hle hready
    refine ⟨by omega, fun j hlo hhi hreach => ?_⟩
    obtain ⟨k, rfl⟩ : ∃ k, j = start + k := ⟨j - start, by omega⟩
    have hwindow := hreach w rfl
    refine (hready k ?_ (by omega)).of_slice
    rcases hcase with rfl | rfl <;> omega

theorem numHitBlocks_confirmed (hg : q.GroupKeyed window i g keys) {maxHit : Int} {n : Nat}
    (h : q.numHitBlocks g keys maxHit = some n) :
    q.Confirmed window g.offloadedBlockSize keys
      (min maxHit
        (g.offloadedBlockSize * (q.numComputedTokens / g.offloadedBlockSize + n) : Nat)) := by
  obtain ⟨hend, hready⟩ := numHitBlocks_ready hg h
  set start := q.numComputedTokens / g.offloadedBlockSize with hstart
  set length : Int := min maxHit (g.offloadedBlockSize * (start + n) : Nat) with hlength
  have hb := hg.pos
  have hle : cdiv length g.offloadedBlockSize ≤ (start + n : Nat) := by
    rw [cdiv_le_iff _ _ hb, Int.mul_comm]
    exact_mod_cast min_le_right _ _
  intro j hlo hhi hwindow
  refine hready j hlo (by omega) fun w hw => ?_
  have hcover : ((start + n : Nat) : Int) ≤ cdiv length g.offloadedBlockSize := by
    rw [← not_lt]
    intro hless
    have hle' := (cdiv_le_iff _ _ hb).mp (Int.le_sub_one_of_lt hless)
    rcases min_choice maxHit ((g.offloadedBlockSize * (start + n) : Nat) : Int) with hm | hm
    · rw [hlength, hm] at hless
      omega
    · rw [hlength, hm] at hle'
      push_cast at hle'
      nlinarith
  have := hwindow w hw
  omega

theorem Confirmed.shorter {blockSize : Nat} (hb : 0 < blockSize) {length length' : Int}
    (h : q.Confirmed none blockSize keys length) (hle : length' ≤ length) :
    q.Confirmed none blockSize keys length' := by
  intro j hlo hhi _
  refine h j hlo ?_ (fun w hw => absurd hw (by simp))
  rw [lt_cdiv_iff _ _ hb] at hhi ⊢
  omega

theorem Confirmed.loadable {blockSize : Nat} (hb : 0 < blockSize)
    (h : q.Confirmed window blockSize keys length)
    (hreached : ∀ w, window = some w → Reached w blockSize length) :
    q.Loadable window blockSize keys length := by
  intro j pos hlo hhi hcomputed hlt hwindow
  refine h j ?_ ?_ fun w hw => le_block hb (hreached w hw) hhi (hwindow w hw)
  · exact Nat.lt_succ_iff.mp ((Nat.div_lt_iff_lt_mul hb).mpr (lt_of_le_of_lt hcomputed hhi))
  · rw [lt_cdiv_iff _ _ hb]
    exact lt_of_le_of_lt (by exact_mod_cast hlo) hlt

/-- What a visit of the group leaves: the new limit, and whether a lookup was deferred. -/
structure Visit (q : LookupInput κ) (window : Option Nat) (g : GroupOffloadConfig)
    (keys : List κ) (s : LookupState) (maxHit : Int) (deferred : Bool) : Prop where
  le : maxHit ≤ s.maxHitSizeTokens
  ge : g.offloadedBlockSize ≤ maxHit - q.numComputedTokens
  fits : maxHit ≤ (keys.length * g.offloadedBlockSize : Nat)
  origin : maxHit = s.maxHitSizeTokens ∨ (g.offloadedBlockSize : Int) ∣ maxHit
  deferred_of : s.deferLookup = true → deferred = true
  confirmed : deferred = false → q.Confirmed window g.offloadedBlockSize keys maxHit

theorem visitGroup_cases (hg : q.GroupKeyed window i g keys)
    (hi : q.groups[i]? = some (g, keys)) (s : LookupState) :
    q.visitGroup s i = .ok none ∨ ∃ maxHit deferred,
      q.visitGroup s i = .ok (some (q.schedule s maxHit deferred window.isSome)) ∧
        q.Visit window g keys s maxHit deferred := by
  have hassert : q.numTokens / g.offloadedBlockSize ≤ keys.length := hg.length.ge
  have hwindow : g.slidingWindowSizeInBlocks.isSome = window.isSome := by
    rw [hg.blocks, Option.isSome_map]
  unfold visitGroup
  rw [hi]
  simp only [pyAssert, if_pos hassert, bind, Except.bind, pure, Except.pure, hwindow]
  set limit : Int := min s.maxHitSizeTokens (keys.length * g.offloadedBlockSize : Nat) with hlimit
  by_cases hfew : limit - q.numComputedTokens < g.offloadedBlockSize
  · exact .inl (if_pos hfew)
  rw [if_neg hfew]
  have horigin : limit = s.maxHitSizeTokens ∨ (g.offloadedBlockSize : Int) ∣ limit := by
    rcases le_total s.maxHitSizeTokens (keys.length * g.offloadedBlockSize : Nat) with hle | hle
    · exact .inl (min_eq_left hle)
    · refine .inr ?_
      rw [hlimit, min_eq_right hle]
      exact Int.natCast_dvd_natCast.mpr (Nat.dvd_mul_left _ _)
  cases hhits : q.numHitBlocks g keys limit with
  | none =>
    refine .inr ⟨limit, true, ?_, min_le_left _ _, not_lt.mp hfew, min_le_right _ _, horigin,
      fun _ => rfl, ?_⟩
    · simp [hfew]
    · exact fun h => absurd h (by simp)
  | some n =>
    by_cases hzero : n = 0
    · exact .inl (by simp [hzero])
    rw [if_neg (by simpa using hzero)]
    simp only [Option.elim_some, Option.isNone_some, Bool.or_false]
    set start := q.numComputedTokens / g.offloadedBlockSize with hstart
    set maxHit : Int := min limit (g.offloadedBlockSize * (start + n) : Nat) with hmax
    by_cases hshort : maxHit - q.numComputedTokens < g.offloadedBlockSize
    · exact .inl (if_pos hshort)
    rw [if_neg hshort]
    refine .inr ⟨maxHit, s.deferLookup, rfl, (min_le_left _ _).trans (min_le_left _ _),
      not_lt.mp hshort, (min_le_left _ _).trans (min_le_right _ _), ?_, id,
      fun _ => numHitBlocks_confirmed hg hhits⟩
    rcases le_total limit ((g.offloadedBlockSize * (start + n) : Nat) : Int) with hle | hle
    · rw [hmax, min_eq_left hle]
      exact horigin
    · refine Or.inr ?_
      rw [hmax, min_eq_right hle]
      exact Int.natCast_dvd_natCast.mpr (Nat.dvd_mul_right _ _)

end group

/-- No multiple of another group's block size splits the window of a sliding-window group. -/
def Compatible (q : LookupInput κ) (window : Nat → Option Nat) : Prop :=
  ∀ (i : Nat) (g : GroupOffloadConfig) (keys : List κ) (w : Nat), q.groups[i]? = some (g, keys) →
    window i = some w → ∀ (k : Nat) (g' : GroupOffloadConfig) (keys' : List κ),
      q.groups[k]? = some (g', keys') → g.offloadedBlockSize ∣ g'.offloadedBlockSize ∨
        (w - 1) % g.offloadedBlockSize ≤ Nat.gcd g'.offloadedBlockSize g.offloadedBlockSize

/-- The lengths a pass can leave: the first limit, or whole blocks of some group. -/
def Admissible (q : LookupInput κ) (length : Int) : Prop :=
  length = q.initial.maxHitSizeTokens ∨
    ∃ (k : Nat) (g : GroupOffloadConfig) (keys : List κ), q.groups[k]? = some (g, keys) ∧
      (g.offloadedBlockSize : Int) ∣ length

theorem reached_of_dvd {w s b : Nat} (hw : 0 < w) (hs : 0 < s)
    (h : s ∣ b ∨ (w - 1) % s ≤ Nat.gcd b s) (hdvd : (b : Int) ∣ length) :
    Reached w s length := by
  rcases h with hsb | hle
  · exact .inl (Int.emod_eq_zero_of_dvd ((Int.natCast_dvd_natCast.mpr hsb).trans hdvd))
  by_cases hzero : length % s = 0
  · exact .inl hzero
  refine .inr ?_
  have hs' : (0 : Int) < s := by exact_mod_cast hs
  have hgcd : (Nat.gcd b s : Int) ∣ length % s := by
    rw [Int.emod_def]
    refine Int.dvd_sub ((Int.natCast_dvd_natCast.mpr (Nat.gcd_dvd_left b s)).trans hdvd) ?_
    exact (Int.natCast_dvd_natCast.mpr (Nat.gcd_dvd_right b s)).mul_right _
  have hnonneg := Int.emod_nonneg length hs'.ne'
  have hgcd_le := Int.le_of_dvd (by omega) hgcd
  have hcast : (w - 1 : Int) % s = ((w - 1) % s : Nat) := by
    rw [Int.natCast_mod, Nat.cast_sub hw, Nat.cast_one]
  omega

theorem reached_of_prompt {w s n : Nat} (hs : 0 < s) (h : (n : Int) - 1 ≤ (n / s * s : Nat)) :
    Reached w s ((n : Int) - 1) := by
  have hs' : (0 : Int) < s := by exact_mod_cast hs
  have hmod := Nat.div_add_mod' n s
  rcases Nat.eq_zero_or_pos (n % s) with hzero | hpos
  · refine .inr ?_
    have hlast : ((n : Int) - 1) % s = s - 1 := by
      have hn : (n : Int) - 1 = (s - 1) + s * ((n / s : Nat) - 1) := by
        have : ((n / s * s : Nat) : Int) = n := by omega
        push_cast at this ⊢
        linarith
      rw [hn, Int.add_mul_emod_self_left]
      exact Int.emod_eq_of_lt (by omega) (by omega)
    have := Int.emod_lt_of_pos (w - 1 : Int) hs'
    omega
  refine .inl ?_
  have hn : (n : Int) - 1 = (n / s : Nat) * (s : Int) := by
    omega
  rw [hn]
  exact Int.mul_emod_left _ _

section passes
variable {q : LookupInput κ} {window : Nat → Option Nat}

variable {i : Nat} {known : List Nat} {s : LookupState}

variable (hq : q.Keyed window) {groups : List Nat}
include hq

theorem exists_group_iff {P : GroupOffloadConfig → Prop} :
    (∃ g, ((∃ e ∈ q.groups, e.1 = g) ∧ P g) ∧ g.groupIdx = i) ↔
      ∃ g keys, q.groups[i]? = some (g, keys) ∧ P g := by
  constructor
  · rintro ⟨g, ⟨⟨⟨g', keys⟩, hmem, rfl⟩, hP⟩, rfl⟩
    obtain ⟨k, hk⟩ := mem_iff_getElem?.mp hmem
    obtain rfl := (hq k g' keys hk).idx
    exact ⟨g', keys, hk, hP⟩
  · rintro ⟨g, keys, hi, hP⟩
    exact ⟨g, ⟨⟨(g, keys), mem_of_getElem? hi, rfl⟩, hP⟩, (hq i g keys hi).idx⟩

theorem mem_fullAttentionGroups : i ∈ q.order.fullAttentionGroups ↔
      ∃ g keys, q.groups[i]? = some (g, keys) ∧ window i = none := by
  simp only [order, lookupOrder, mem_map, mem_filter, exists_group_iff hq]
  refine exists₂_congr fun g keys => and_congr_right fun hi => ?_
  simp [(hq i g keys hi).blocks]

theorem mem_slidingWindowGroups : i ∈ q.order.slidingWindowGroups ↔
      ∃ g keys, q.groups[i]? = some (g, keys) ∧ (window i).isSome := by
  simp only [order, lookupOrder, mem_map, mem_insertionSort, mem_filter, exists_group_iff hq]
  refine exists₂_congr fun g keys => and_congr_right fun hi => ?_
  simp [(hq i g keys hi).blocks]

theorem mem_lookupGroups : i ∈ q.order.lookupGroups ↔ ∃ g keys, q.groups[i]? = some (g, keys) := by
  rw [LookupOrder.lookupGroups, mem_append, mem_fullAttentionGroups hq, mem_slidingWindowGroups hq]
  constructor
  · rintro (⟨g, keys, hi, -⟩ | ⟨g, keys, hi, -⟩) <;> exact ⟨g, keys, hi⟩
  rintro ⟨g, keys, hi⟩
  cases hw : window i with
  | none => exact .inl ⟨g, keys, hi, rfl⟩
  | some w => exact .inr ⟨g, keys, hi, rfl⟩

def GroupConfirmed (q : LookupInput κ) (window : Nat → Option Nat) (length : Int) (i : Nat) :
    Prop :=
  ∀ (g : GroupOffloadConfig) (keys : List κ), q.groups[i]? = some (g, keys) →
    q.Confirmed (window i) g.offloadedBlockSize keys length

/-- What holds inside a pass; `known` lists the groups whose last visit still counts. -/
structure PassInv (q : LookupInput κ) (window : Nat → Option Nat) (known : List Nat)
    (s : LookupState) : Prop where
  known_mem : ∀ i ∈ known, i ∈ q.order.lookupGroups
  admissible : q.Admissible s.maxHitSizeTokens
  hit : s.numHitTokens = s.maxHitSizeTokens - q.numComputedTokens ∨
    known = [] ∧ s.numHitTokens = 0
  fits : ∀ i ∈ known, ∀ (g : GroupOffloadConfig) (keys : List κ), q.groups[i]? = some (g, keys) →
    s.maxHitSizeTokens ≤ (keys.length * g.offloadedBlockSize : Nat)
  full : s.deferLookup = false → s.lookupGroups = q.order.lookupGroups ∨
    ∀ i ∈ known, window i = none → q.GroupConfirmed window s.maxHitSizeTokens i
  sliding : s.deferLookup = false → s.lookupGroups ≠ [] ∨
    ∀ i ∈ known, (window i).isSome → q.GroupConfirmed window s.maxHitSizeTokens i
  looked : ∀ i ∈ known, (window i).isSome → s.lookedUpSlidingWindow = true
  scheduled : s.lookupGroups = [] ∨ s.lookupGroups = q.order.slidingWindowGroups ∨
    s.lookupGroups = q.order.lookupGroups

omit hq in
theorem schedule_cases (q : LookupInput κ) (s : LookupState) (maxHit : Int)
    (deferred isWindow : Bool) :
    (s.numHitTokens ≤ maxHit - q.numComputedTokens ∧
      q.schedule s maxHit deferred isWindow = ⟨maxHit, maxHit - q.numComputedTokens, deferred,
        s.lookedUpSlidingWindow || isWindow, s.lookupGroups⟩) ∨
    (maxHit - q.numComputedTokens < s.numHitTokens ∧
      q.schedule s maxHit deferred isWindow = ⟨maxHit, maxHit - q.numComputedTokens, false,
        s.lookedUpSlidingWindow || isWindow, if deferred then q.order.lookupGroups
          else if s.lookedUpSlidingWindow ∧ s.lookupGroups = [] then q.order.slidingWindowGroups
          else s.lookupGroups⟩) := by
  unfold schedule
  by_cases hfewer : maxHit - q.numComputedTokens < s.numHitTokens
  · refine Or.inr ⟨hfewer, ?_⟩
    simp [hfewer]
  · refine Or.inl ⟨not_lt.mp hfewer, ?_⟩
    simp [hfewer]

section
variable (h : q.PassInv window known s)
include h

/-- One visit keeps the invariant; a new pass is only scheduled when the limit drops. -/
theorem PassInv.visit {s' : LookupState}
    (hi : i ∈ q.order.lookupGroups) (hv : q.visitGroup s i = .ok (some s')) :
    q.PassInv window (i :: known) s' ∧ 0 < s'.maxHitSizeTokens ∧
      s'.maxHitSizeTokens ≤ s.maxHitSizeTokens ∧
      (s'.lookupGroups = s.lookupGroups ∨ s'.maxHitSizeTokens < s.maxHitSizeTokens) := by
  obtain ⟨g, keys, hgroup⟩ := (mem_lookupGroups hq).mp hi
  have hg := hq i g keys hgroup
  obtain hnone | ⟨maxHit, deferred, hsome, v⟩ := visitGroup_cases hg hgroup s
  · rw [hnone] at hv
    exact absurd hv (by simp)
  rw [hsome] at hv
  obtain rfl : q.schedule s maxHit deferred (window i).isSome = s' := by simpa using hv
  have hpos : 0 < maxHit := by
    have := v.ge
    have := hg.pos
    omega
  have hgroup_eq {g' : GroupOffloadConfig} {keys' : List κ}
      (hg' : q.groups[i]? = some (g', keys')) : g' = g ∧ keys' = keys := by
    rw [hgroup] at hg'
    exact ⟨(Prod.mk.inj (Option.some.inj hg')).1.symm, (Prod.mk.inj (Option.some.inj hg')).2.symm⟩
  have hself : deferred = false → q.GroupConfirmed window maxHit i := by
    intro hd g' keys' hg'
    obtain ⟨rfl, rfl⟩ := hgroup_eq hg'
    exact v.confirmed hd
  have hdefer : deferred = false → s.deferLookup = false := by
    intro hd
    cases hs : s.deferLookup with
    | false => rfl
    | true => exact absurd (v.deferred_of hs) (by simp [hd])
  have hmem : ∀ k ∈ i :: known, k ∈ q.order.lookupGroups := by
    intro k hk
    rcases mem_cons.mp hk with rfl | hk
    · exact hi
    · exact h.known_mem k hk
  have hadm : q.Admissible maxHit := by
    rcases v.origin with heq | hdvd
    · rw [heq]
      exact h.admissible
    · exact .inr ⟨i, g, keys, hgroup, hdvd⟩
  have hfits : ∀ k ∈ i :: known, ∀ (g' : GroupOffloadConfig) (keys' : List κ),
      q.groups[k]? = some (g', keys') → maxHit ≤ (keys'.length * g'.offloadedBlockSize : Nat) := by
    intro k hk g' keys' hg'
    rcases mem_cons.mp hk with rfl | hk
    · obtain ⟨rfl, rfl⟩ := hgroup_eq hg'
      exact v.fits
    · exact v.le.trans (h.fits k hk g' keys' hg')
  have hlooked : ∀ k ∈ i :: known, (window k).isSome →
      (s.lookedUpSlidingWindow || (window i).isSome) = true := by
    intro k hk hw
    rcases mem_cons.mp hk with rfl | hk
    · rw [hw, Bool.or_true]
    · rw [h.looked k hk hw, Bool.true_or]
  have hall : q.order.lookupGroups ≠ [] := ne_nil_of_mem hi
  obtain ⟨hkeep, heq⟩ | ⟨hfewer, heq⟩ := schedule_cases q s maxHit deferred (window i).isSome
  · -- nothing is shortened, so what was confirmed stays so
    have hsame : known = [] ∨ maxHit = s.maxHitSizeTokens := by
      rcases h.hit with hhit | ⟨hnil, -⟩
      · exact .inr (by have := v.le; omega)
      · exact .inl hnil
    have hknown {P : Nat → Prop} (hP : ∀ k ∈ known, P k → q.GroupConfirmed window
        s.maxHitSizeTokens k) (hd : deferred = false) :
        ∀ k ∈ i :: known, P k → q.GroupConfirmed window maxHit k := by
      intro k hk hpk
      rcases mem_cons.mp hk with rfl | hk
      · exact hself hd
      rcases hsame with rfl | hmax
      · exact absurd hk (by simp)
      · rw [hmax]
        exact hP k hk hpk
    rw [heq]
    refine ⟨⟨hmem, hadm, .inl rfl, hfits, fun hd => ?_, fun hd => ?_, hlooked, h.scheduled⟩,
      hpos, v.le, .inl rfl⟩
    · exact (h.full (hdefer hd)).imp_right fun hP => hknown hP hd
    · exact (h.sliding (hdefer hd)).imp_right fun hP => hknown hP hd
  · have hlt : maxHit < s.maxHitSizeTokens := by
      rcases h.hit with hhit | ⟨-, hzero⟩
      · omega
      · have := v.ge
        omega
    rw [heq]
    refine ⟨⟨hmem, hadm, .inl rfl, hfits, fun _ => ?_, fun _ => ?_, hlooked, ?_⟩, hpos, v.le,
      .inr hlt⟩
    · cases deferred with
      | true => exact .inl rfl
      | false =>
        rcases h.full (hdefer rfl) with hsched | hP
        · simp [hsched, hall]
        refine .inr fun k hk hw => ?_
        rcases mem_cons.mp hk with rfl | hk
        · exact hself rfl
        intro g' keys' hg'
        have hconf := hP k hk hw g' keys' hg'
        rw [hw] at hconf ⊢
        exact hconf.shorter (hq k g' keys' hg').pos hlt.le
    · cases deferred with
      | true => exact .inl hall
      | false =>
        by_cases hempty : s.lookupGroups = []
        · by_cases hany : ∃ k ∈ known, (window k).isSome
          · obtain ⟨k, hk, hw⟩ := hany
            obtain ⟨g', keys', hg'⟩ := (mem_lookupGroups hq).mp (h.known_mem k hk)
            have hmem' := (mem_slidingWindowGroups hq).mpr ⟨g', keys', hg', hw⟩
            refine .inl ?_
            simpa [hempty, h.looked k hk hw] using ne_nil_of_mem hmem'
          · refine .inr fun k hk hw => ?_
            rcases mem_cons.mp hk with rfl | hk
            · exact hself rfl
            · exact absurd ⟨k, hk, hw⟩ hany
        · exact .inl (by simp [hempty])
    · split_ifs
      · exact .inr (.inr rfl)
      · exact .inr (.inl rfl)
      · exact h.scheduled

omit hq in
theorem PassInv.of_subset {known' : List Nat}
    (hsub : ∀ i ∈ known', i ∈ known) : q.PassInv window known' s := by
  refine ⟨fun i hi => h.known_mem i (hsub i hi), h.admissible, h.hit.imp_right ?_,
    fun i hi => h.fits i (hsub i hi), fun hd => (h.full hd).imp_right fun hP i hi => hP i (hsub i hi),
    fun hd => (h.sliding hd).imp_right fun hP i hi => hP i (hsub i hi),
    fun i hi => h.looked i (hsub i hi), h.scheduled⟩
  rintro ⟨rfl, hzero⟩
  exact ⟨eq_nil_iff_forall_not_mem.mpr fun i hi => absurd (hsub i hi) (by simp), hzero⟩

theorem PassInv.visitGroups
    (hgroups : ∀ i ∈ groups, i ∈ q.order.lookupGroups) :
    q.visitGroups groups s = .ok none ∨ ∃ s', q.visitGroups groups s = .ok (some s') ∧
      q.PassInv window (groups.reverse ++ known) s' ∧
      (groups ≠ [] → 0 < s'.maxHitSizeTokens) ∧ s'.maxHitSizeTokens ≤ s.maxHitSizeTokens ∧
      (s'.lookupGroups = s.lookupGroups ∨ s'.maxHitSizeTokens < s.maxHitSizeTokens) := by
  induction groups generalizing known s with
  | nil => exact .inr ⟨s, rfl, h, fun hne => absurd rfl hne, le_rfl, .inl rfl⟩
  | cons i rest ih =>
    have hi := hgroups i mem_cons_self
    obtain ⟨g, keys, hgroup⟩ := (mem_lookupGroups hq).mp hi
    obtain hnone | ⟨maxHit, deferred, hsome, -⟩ := visitGroup_cases (hq i g keys hgroup) hgroup s
    · refine .inl ?_
      rw [visitGroups, hnone]
      rfl
    obtain ⟨hinv, hpos, hle, hdrop⟩ := h.visit hq hi hsome
    have hrun : q.visitGroups (i :: rest) s = q.visitGroups rest
        (q.schedule s maxHit deferred (window i).isSome) := by
      rw [visitGroups, hsome]
      rfl
    rw [hrun]
    refine (ih hinv fun k hk => hgroups k (mem_cons_of_mem i hk)).imp_right ?_
    rintro ⟨s', hs', hinv', hpos', hle', hdrop'⟩
    refine ⟨s', hs', by simpa using hinv', fun _ => ?_, hle'.trans hle, ?_⟩
    · rcases rest with - | ⟨k, rest⟩
      · obtain rfl := Option.some.inj (Except.ok.inj hs')
        exact hpos
      · exact hpos' (by simp)
    rcases hdrop' with hsame' | hlt'
    · rcases hdrop with hsame | hlt
      · exact .inl (hsame'.trans hsame)
      · exact .inr (lt_of_le_of_lt hle' hlt)
    · exact .inr (lt_of_lt_of_le hlt' hle)

end

/-- The state at the start of a pass over `groups`: what was confirmed for the groups that are not
visited again still counts. -/
def PassStart (q : LookupInput κ) (window : Nat → Option Nat) (groups : List Nat)
    (s : LookupState) : Prop :=
  (groups = q.order.lookupGroups ∧
    q.PassInv window [] { s with lookedUpSlidingWindow := false, lookupGroups := [] }) ∨
  (groups = q.order.slidingWindowGroups ∧ q.PassInv window q.order.fullAttentionGroups
    { s with lookedUpSlidingWindow := false, lookupGroups := [] })

theorem PassInv.next (h : q.PassInv window q.order.lookupGroups s) (hne : s.lookupGroups ≠ []) :
    q.PassStart window s.lookupGroups s := by
  have hhit : s.numHitTokens = s.maxHitSizeTokens - q.numComputedTokens := by
    refine h.hit.resolve_right ?_
    rintro ⟨hnil, -⟩
    rcases h.scheduled with hs | hs | hs
    · exact hne hs
    · exact hne (hs.trans (append_eq_nil_iff.mp hnil).2)
    · exact hne (hs.trans hnil)
  by_cases hall : s.lookupGroups = q.order.lookupGroups
  · refine .inl ⟨hall, ⟨?_, h.admissible, .inl hhit, ?_, ?_, ?_, ?_, .inl rfl⟩⟩
    all_goals simp
  have hsub : ∀ i ∈ q.order.fullAttentionGroups, i ∈ q.order.lookupGroups :=
    fun i hi => mem_append_left _ hi
  have hwindow : ∀ i ∈ q.order.fullAttentionGroups, ¬ (window i).isSome := by
    intro i hi
    obtain ⟨-, -, -, hnone⟩ := (mem_fullAttentionGroups hq).mp hi
    simp [hnone]
  refine .inr ⟨(h.scheduled.resolve_left hne).resolve_right hall, ⟨hsub, h.admissible,
    .inl hhit, fun i hi => h.fits i (hsub i hi), fun hd => .inr ?_, fun _ => .inr ?_, ?_,
    .inl rfl⟩⟩
  · exact fun i hi => (h.full hd).resolve_left hall i (hsub i hi)
  · exact fun i hi hw => absurd hw (hwindow i hi)
  · exact fun i hi hw => absurd hw (hwindow i hi)

def nextPass (q : LookupInput κ) (fuel : Nat) :
    Option LookupState → Except PyError (Option (Option LookupState))
  | none => return some none
  | some s => q.passes fuel s.lookupGroups s

theorem passes_spec {fuel : Nat} (h : q.PassStart window groups s)
    (hne : groups ≠ []) (hfuel : s.maxHitSizeTokens.toNat < fuel) :
    q.passes fuel groups s = .ok (some none) ∨ ∃ s', q.passes fuel groups s = .ok (some (some s')) ∧
      s'.lookupGroups = [] ∧ q.PassInv window q.order.lookupGroups s' := by
  induction fuel generalizing groups s with
  | zero => exact absurd hfuel (Nat.not_lt_zero _)
  | succ fuel ih =>
    set s0 : LookupState := { s with lookedUpSlidingWindow := false, lookupGroups := [] } with hs0
    obtain ⟨known, hinv, hsub, hcover⟩ : ∃ known, q.PassInv window known s0 ∧
        (∀ i ∈ groups, i ∈ q.order.lookupGroups) ∧
          ∀ i ∈ q.order.lookupGroups, i ∈ groups.reverse ++ known := by
      rcases h with ⟨rfl, hinv⟩ | ⟨rfl, hinv⟩
      · exact ⟨[], hinv, fun i hi => hi, fun i hi => by simpa using hi⟩
      refine ⟨_, hinv, fun i hi => mem_append_right _ hi, fun i hi => ?_⟩
      rcases mem_append.mp hi with hi | hi
      · exact mem_append_right _ hi
      · exact mem_append_left _ (mem_reverse.mpr hi)
    have hpass : q.passes (fuel + 1) groups s = (q.visitGroups groups s0 >>= q.nextPass fuel) := by
      cases groups with
      | nil => exact absurd rfl hne
      | cons i rest => rfl
    rw [hpass]
    obtain hnone | ⟨s', hs', hinv', hpos, -, hdrop⟩ := hinv.visitGroups hq hsub
    · refine .inl ?_
      rw [hnone]
      rfl
    have hend := hinv'.of_subset hcover
    have hrun : (q.visitGroups groups s0 >>= q.nextPass fuel) =
        q.passes fuel s'.lookupGroups s' := by
      rw [hs']
      rfl
    rw [hrun]
    by_cases hlast : s'.lookupGroups = []
    · refine .inr ⟨s', ?_, hlast, hend⟩
      rw [hlast]
      cases fuel <;> rfl
    · have hlt : s'.maxHitSizeTokens < s.maxHitSizeTokens := hdrop.resolve_left hlast
      have hpos' := hpos hne
      exact ih (hend.next hq hlast) hlast (by omega)

structure HitSpec (q : LookupInput κ) (window : Nat → Option Nat) (length : Int) : Prop where
  admissible : q.Admissible length
  confirmed : ∀ i, q.GroupConfirmed window length i
  fits : ∀ (i : Nat) (g : GroupOffloadConfig) (keys : List κ), q.groups[i]? = some (g, keys) →
    length ≤ (keys.length * g.offloadedBlockSize : Nat)

omit hq in
theorem initial_start : q.PassStart window q.order.lookupGroups q.initial := by
  refine .inl ⟨rfl, ⟨?_, .inl rfl, .inr ⟨rfl, rfl⟩, ?_, ?_, ?_, ?_, .inl rfl⟩⟩
  all_goals simp

theorem run_spec [DecidableEq κ] {fuel : Nat} (hfuel : q.numTokens < fuel) :
    ∃ r, q.run fuel = .ok r ∧ r ≠ .outOfFuel ∧
      ∀ h, r = .hit h → 0 < h → q.HitSpec window (q.numComputedTokens + h) := by
  by_cases hall : q.order.lookupGroups = []
  · have hpasses : q.passes fuel q.order.lookupGroups q.initial = .ok (some (some q.initial)) := by
      rw [hall]
      cases fuel <;> rfl
    have hrun : q.run fuel = if q.isBeingLoaded 0 then .ok .deferred else .ok (.hit 0) := by
      rw [run, hpasses]
      rfl
    rw [hrun]
    cases q.isBeingLoaded 0 with
    | true => exact ⟨.deferred, rfl, by simp, fun h hh => absurd hh (by simp)⟩
    | false =>
      refine ⟨.hit 0, rfl, by simp, fun h hh hpos => ?_⟩
      obtain rfl : 0 = h := by simpa using hh
      exact absurd hpos (lt_irrefl 0)
  have hmax : q.initial.maxHitSizeTokens.toNat < fuel := by
    unfold initial
    dsimp only
    split_ifs <;> omega
  obtain hnone | ⟨s, hs, hlast, hinv⟩ := passes_spec hq initial_start hall hmax
  · refine ⟨.hit 0, ?_, by simp, fun h hh hpos => ?_⟩
    · rw [run, hnone]
      rfl
    · obtain rfl : 0 = h := by simpa using hh
      exact absurd hpos (lt_irrefl 0)
  have hrun : q.run fuel = if s.deferLookup then .ok .deferred
      else if q.isBeingLoaded s.numHitTokens then .ok .deferred else .ok (.hit s.numHitTokens) := by
    rw [run, hs]
    rfl
  rw [hrun]
  cases hd : s.deferLookup with
  | true => exact ⟨.deferred, rfl, by simp, fun h hh => absurd hh (by simp)⟩
  | false =>
    cases q.isBeingLoaded s.numHitTokens with
    | true => exact ⟨.deferred, rfl, by simp, fun h hh => absurd hh (by simp)⟩
    | false =>
      refine ⟨.hit s.numHitTokens, rfl, by simp, fun h hh _ => ?_⟩
      obtain rfl : s.numHitTokens = h := by simpa using hh
      have hlength : q.numComputedTokens + s.numHitTokens = s.maxHitSizeTokens := by
        have := hinv.hit.resolve_right fun hnil => hall hnil.1
        omega
      rw [hlength]
      refine ⟨hinv.admissible, fun i g keys hi => ?_, fun i g keys hi => ?_⟩
      · have hmem := (mem_lookupGroups hq).mpr ⟨g, keys, hi⟩
        cases hw : window i with
        | none =>
          have hfull := (hinv.full hd).resolve_left fun hcontra => hall (hcontra.symm.trans hlast)
          simpa [hw] using hfull i hmem hw g keys hi
        | some w =>
          have hsliding := (hinv.sliding hd).resolve_left (not_not.mpr hlast)
          simpa [hw] using hsliding i hmem (by rw [hw]; rfl) g keys hi
      · exact hinv.fits i ((mem_lookupGroups hq).mpr ⟨g, keys, hi⟩) g keys hi

theorem HitSpec.reached (hc : q.Compatible window) (h : q.HitSpec window length)
    {g : GroupOffloadConfig} {keys : List κ} (hi : q.groups[i]? = some (g, keys))
    (hw : window i = some w) : Reached w g.offloadedBlockSize length := by
  have hg := hq i g keys hi
  rcases h.admissible with hinit | ⟨k, g', keys', hk, hdvd⟩
  · have hne : q.order.slidingWindowGroups ≠ [] :=
      ne_nil_of_mem ((mem_slidingWindowGroups hq).mpr ⟨g, keys, hi, by rw [hw]; rfl⟩)
    have hlength : length = (q.numTokens : Int) - 1 := by
      rw [hinit]
      exact if_neg hne
    have hfits := h.fits i g keys hi
    rw [hlength, hg.length] at hfits
    rw [hlength]
    exact reached_of_prompt hg.pos hfits
  · exact reached_of_dvd (hg.window_pos w hw) hg.pos (hc i g keys w hi hw k g' keys' hk) hdvd

end passes

end LookupInput

end TailBlend
