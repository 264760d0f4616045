import TailBlend.OffloadSound

/-! A length that splits a window: when the manager holds the blocks of one group up to `length` and
of another group only the blocks the lookup asks for, the lookup ends with `length`. -/
namespace TailBlend
open List
variable {κ : Type}

namespace LookupInput
variable {q : LookupInput κ} {window : Nat → Option Nat}

theorem numHitBlocks_eq {w : Option Nat} {i : Nat} {g : GroupOffloadConfig} {keys : List κ}
    (hg : q.GroupKeyed w i g keys) (hzero : q.numComputedTokens = 0) {maxHit : Int} {n : Nat}
    (hfits : maxHit ≤ (keys.length * g.offloadedBlockSize : Nat))
    (hn : n ≤ (cdiv maxHit g.offloadedBlockSize).toNat)
    (hready : ∀ (j : Nat) (key : κ), keys[j]? = some key →
      j < (cdiv maxHit g.offloadedBlockSize).toNat → (w = none → j ≤ n) →
      (∀ v : Nat, w = some v → n ≤ j + (cdiv v g.offloadedBlockSize).toNat) →
        q.lookup key = some (decide (j < n))) :
    q.numHitBlocks g keys maxHit = some n := by
  set limit := (cdiv maxHit g.offloadedBlockSize).toNat with hlimit
  have hle : limit ≤ keys.length := by
    rw [Int.toNat_le, cdiv_le_iff _ _ hg.pos]
    exact_mod_cast hfits
  have hget : ∀ (j : Nat) (key : κ), (keys.take limit)[j]? = some key →
      keys[j]? = some key ∧ j < limit := by
    intro j key hj
    rw [getElem?_take] at hj
    split_ifs at hj with hlt
    · exact ⟨hj, hlt⟩
  unfold numHitBlocks
  simp only [← hlimit, min_eq_left hle, hzero, Nat.zero_div, drop_zero]
  cases hw : w with
  | none =>
    have hblocks : g.slidingWindowSizeInBlocks = none := by rw [hg.blocks, hw, Option.map_none]
    simp only [hblocks]
    have hlen : n ≤ (keys.take limit).length := by
      rw [length_take]
      omega
    rw [maximalPrefixLookup_eq hlen, Nat.zero_add]
    intro j key hj hjn
    obtain ⟨hkey, hlt⟩ := hget j key hj
    exact hready j key hkey hlt (fun _ => hjn) fun v hv => absurd (hw.symm.trans hv) (by simp)
  | some v =>
    have hblocks : g.slidingWindowSizeInBlocks = some (cdiv v g.offloadedBlockSize).toNat := by
      rw [hg.blocks, hw, Option.map_some]
    simp only [hblocks]
    have hv : 0 < v := hg.window_pos v hw
    have hpos : 0 < (cdiv (v : Int) g.offloadedBlockSize).toNat := by
      have := cdiv_pos (by omega : (0 : Int) < v) hg.pos
      omega
    refine slidingWindowLookup_eq hpos (fun j key hj hjn => ?_) ?_ hpos
    · rw [reverse_reverse] at hj
      obtain ⟨hkey, hlt⟩ := hget j key hj
      refine hready j key hkey hlt (fun hnone => absurd (hw.symm.trans hnone) (by simp)) ?_
      intro v' hv'
      obtain rfl := Option.some.inj (hw.symm.trans hv')
      exact hjn
    · rw [length_reverse, length_take]
      omega

/-- Every group allows `length`, and group `last` not more. -/
structure Ample (q : LookupInput κ) (length : Int) (last : Nat) : Prop where
  computed : q.numComputedTokens = 0
  block : ∀ (i : Nat) (g : GroupOffloadConfig) (keys : List κ), q.groups[i]? = some (g, keys) →
    (g.offloadedBlockSize : Int) ≤ length
  whole : ∀ (i : Nat) (g : GroupOffloadConfig) (keys : List κ), q.groups[i]? = some (g, keys) →
    (q.numTokens : Int) ≤ (keys.length * g.offloadedBlockSize : Nat)
  hits : ∀ (i : Nat) (g : GroupOffloadConfig) (keys : List κ), q.groups[i]? = some (g, keys) →
    ∀ maxHit : Int, length ≤ maxHit → maxHit ≤ q.numTokens → ∃ n : Nat,
      q.numHitBlocks g keys maxHit = some n ∧ length ≤ (g.offloadedBlockSize * n : Nat) ∧
        (i = last → ((g.offloadedBlockSize * n : Nat) : Int) ≤ length)

/-- The states of a lookup that never falls below `length`. -/
structure AmpleState (q : LookupInput κ) (length : Int) (s : LookupState) : Prop where
  ge : length ≤ s.maxHitSizeTokens
  le : s.maxHitSizeTokens ≤ q.numTokens
  ready : s.deferLookup = false
  groups : ∀ i ∈ s.lookupGroups, i ∈ q.order.lookupGroups

variable {length : Int} {last : Nat}

variable {s : LookupState}

section
variable (hq : q.Keyed window) (ha : q.Ample length last) {groups : List Nat}
include hq ha

theorem AmpleState.visit (h : q.AmpleState length s) {i : Nat} (hi : i ∈ q.order.lookupGroups) :
    ∃ s', q.visitGroup s i = .ok (some s') ∧ q.AmpleState length s' ∧
      s'.maxHitSizeTokens ≤ s.maxHitSizeTokens ∧ (i = last → s'.maxHitSizeTokens ≤ length) := by
  obtain ⟨g, keys, hgroup⟩ := (mem_lookupGroups hq).mp hi
  have hg := hq i g keys hgroup
  have hblock := ha.block i g keys hgroup
  obtain ⟨n, hn, hlength, hlast⟩ := ha.hits i g keys hgroup _ h.ge h.le
  have hlimit : min s.maxHitSizeTokens (keys.length * g.offloadedBlockSize : Nat) =
      s.maxHitSizeTokens := min_eq_left (h.le.trans (ha.whole i g keys hgroup))
  have hpos := hg.pos
  have hn_pos : n ≠ 0 := by
    rintro rfl
    omega
  have hmin : length ≤ min s.maxHitSizeTokens (g.offloadedBlockSize * n : Nat) :=
    le_min h.ge hlength
  have hvisit : q.visitGroup s i = .ok (some (q.schedule s
      (min s.maxHitSizeTokens (g.offloadedBlockSize * n : Nat)) false
        g.slidingWindowSizeInBlocks.isSome)) := by
    unfold visitGroup
    rw [hgroup]
    simp only [pyAssert, if_pos hg.length.ge, bind, Except.bind, pure, Except.pure, hlimit, hn,
      ha.computed, Nat.zero_div, Nat.zero_add, Option.elim_some, Option.isNone_some, Bool.or_false,
      h.ready]
    rw [if_neg (by omega), if_neg (by simpa using hn_pos), if_neg (by omega)]
  refine ⟨_, hvisit, ?_, ?_, ?_⟩
  · obtain ⟨-, heq⟩ | ⟨-, heq⟩ := schedule_cases q s
      (min s.maxHitSizeTokens (g.offloadedBlockSize * n : Nat)) false
      g.slidingWindowSizeInBlocks.isSome
    · rw [heq]
      exact ⟨hmin, (min_le_left _ _).trans h.le, rfl, h.groups⟩
    rw [heq]
    refine ⟨hmin, (min_le_left _ _).trans h.le, rfl, fun k hk => ?_⟩
    simp only [Bool.false_eq_true, if_false] at hk
    split_ifs at hk
    · exact mem_append_right _ hk
    · exact h.groups k hk
  · exact min_le_left _ _
  · exact fun heq => (min_le_right _ _).trans (hlast heq)

theorem AmpleState.visitGroups (h : q.AmpleState length s)
    (hgroups : ∀ i ∈ groups, i ∈ q.order.lookupGroups) :
    ∃ s', q.visitGroups groups s = .ok (some s') ∧ q.AmpleState length s' ∧
      s'.maxHitSizeTokens ≤ s.maxHitSizeTokens ∧
      (last ∈ groups → s'.maxHitSizeTokens ≤ length) := by
  induction groups generalizing s with
  | nil => exact ⟨s, rfl, h, le_rfl, fun hmem => absurd hmem (by simp)⟩
  | cons i rest ih =>
    obtain ⟨s1, hs1, h1, hle1, hlast1⟩ := h.visit hq ha (hgroups i mem_cons_self)
    obtain ⟨s2, hs2, h2, hle2, hlast2⟩ := ih h1 fun k hk => hgroups k (mem_cons_of_mem i hk)
    refine ⟨s2, ?_, h2, hle2.trans hle1, fun hmem => ?_⟩
    · rw [visitGroups, hs1]
      exact hs2
    · rcases mem_cons.mp hmem with rfl | hrest
      · exact hle2.trans (hlast1 rfl)
      · exact hlast2 hrest

theorem AmpleState.passes (fuel : Nat) (h : q.AmpleState length s)
    (hgroups : ∀ i ∈ groups, i ∈ q.order.lookupGroups) :
    q.passes fuel groups s = .ok none ∨ ∃ s', q.passes fuel groups s = .ok (some (some s')) ∧
      q.AmpleState length s' ∧ s'.maxHitSizeTokens ≤ s.maxHitSizeTokens ∧
        (last ∈ groups → s'.maxHitSizeTokens ≤ length) := by
  induction fuel generalizing groups s with
  | zero =>
    cases groups with
    | nil => exact Or.inr ⟨s, rfl, h, le_rfl, fun hmem => absurd hmem (by simp)⟩
    | cons i rest => exact Or.inl rfl
  | succ fuel ih =>
    cases groups with
    | nil => exact Or.inr ⟨s, rfl, h, le_rfl, fun hmem => absurd hmem (by simp)⟩
    | cons i rest =>
      have h0 : q.AmpleState length
          { s with lookedUpSlidingWindow := false, lookupGroups := [] } :=
        ⟨h.ge, h.le, h.ready, fun k hk => absurd hk (by simp)⟩
      obtain ⟨s1, hs1, h1, hle1, hlast1⟩ := h0.visitGroups hq ha hgroups
      have hrun : q.passes (fuel + 1) (i :: rest) s = q.passes fuel s1.lookupGroups s1 := by
        rw [passes, hs1]
        · rfl
        · simp
      rw [hrun]
      refine (ih h1 h1.groups).imp_right ?_
      rintro ⟨s2, hs2, h2, hle2, -⟩
      exact ⟨s2, hs2, h2, hle2.trans hle1, fun hmem => hle2.trans (hlast1 hmem)⟩

theorem run_ample [DecidableEq κ] (hlength : length < q.numTokens)
    (hlast : last ∈ q.order.lookupGroups) (hloading : q.blocksBeingLoaded = none) {fuel : Nat}
    (hfuel : q.numTokens < fuel) : q.run fuel = .ok (.hit length) := by
  have hinit : q.AmpleState length q.initial := by
    refine ⟨?_, ?_, rfl, fun i hi => absurd hi (by simp [initial])⟩
    · unfold initial
      dsimp only
      split_ifs <;> omega
    · unfold initial
      dsimp only
      split_ifs <;> omega
  have hmax : q.initial.maxHitSizeTokens.toNat < fuel := by
    have := hinit.le
    omega
  have hpass := hinit.passes hq ha fuel fun i hi => hi
  obtain hnone | ⟨s, hs, hlook, hinv⟩ := passes_spec hq initial_start (ne_nil_of_mem hlast) hmax
  · rcases hpass with hp | ⟨s, hp, -⟩ <;> rw [hnone] at hp <;> exact absurd hp (by simp)
  obtain ⟨s', hs', h', -, hle⟩ := hpass.resolve_left (by rw [hs]; simp)
  rw [hs] at hs'
  obtain rfl : s = s' := by simpa using hs'
  have hmaxHit : s.maxHitSizeTokens = length := le_antisymm (hle hlast) h'.ge
  have hhit : s.numHitTokens = length := by
    have := hinv.hit.resolve_right fun hnil => ne_nil_of_mem hlast hnil.1
    rw [this, hmaxHit, ha.computed]
    simp
  rw [run, hs]
  simp [bind, Except.bind, pure, Except.pure, h'.ready, isBeingLoaded, hloading, hhit]

end

section answers
variable {split w length m : Nat} {g g' : GroupOffloadConfig} {keys keys' : List κ}

/-- The manager holds the blocks of group `last` up to `length`, the last blocks of group `split`
up to there, and all of the other groups. -/
structure SplitAnswers (q : LookupInput κ) (split last w length m : Nat)
    (g g' : GroupOffloadConfig) (keys keys' : List κ) : Prop where
  ne : split ≠ last
  length_eq : length = g'.offloadedBlockSize * m
  split_group : q.groups[split]? = some (g, keys)
  last_group : q.groups[last]? = some (g', keys')
  window : ∀ (j : Nat) (key : κ), keys[j]? = some key → q.lookup key = some (decide
    (cdiv length g.offloadedBlockSize ≤ j + cdiv w g.offloadedBlockSize ∧
      (j : Int) < cdiv length g.offloadedBlockSize))
  whole : ∀ (j : Nat) (key : κ), keys'[j]? = some key → q.lookup key = some (decide (j < m))
  others : ∀ (i : Nat) (g'' : GroupOffloadConfig) (keys'' : List κ),
    q.groups[i]? = some (g'', keys'') → i ≠ split → i ≠ last →
      ∀ key ∈ keys'', q.lookup key = some true

theorem SplitAnswers.ample (hq : q.Keyed window)
    (h : q.SplitAnswers split last w length m g g' keys keys') (hw : window split = some w)
    (hzero : q.numComputedTokens = 0)
    (hsize : ∀ (i : Nat) (g'' : GroupOffloadConfig) (keys'' : List κ),
      q.groups[i]? = some (g'', keys'') → g''.offloadedBlockSize ≤ length ∧
        g''.offloadedBlockSize ∣ q.numTokens) :
    q.Ample length last := by
  have hwhole : ∀ (i : Nat) (g'' : GroupOffloadConfig) (keys'' : List κ),
      q.groups[i]? = some (g'', keys'') →
        (q.numTokens : Int) ≤ (keys''.length * g''.offloadedBlockSize : Nat) := by
    intro i g'' keys'' hi
    rw [(hq i g'' keys'' hi).length, Nat.div_mul_cancel (hsize i g'' keys'' hi).2]
  refine ⟨hzero, fun i g'' keys'' hi => ?_, hwhole, fun i g'' keys'' hi maxHit hge hle => ?_⟩
  · exact_mod_cast (hsize i g'' keys'' hi).1
  have hg := hq i g'' keys'' hi
  have hfits := hle.trans (hwhole i g'' keys'' hi)
  have hcdiv := cdiv_mono hge hg.pos
  by_cases hlast : i = last
  · -- the group whose blocks end at `length`
    subst hlast
    obtain ⟨rfl, rfl⟩ := Prod.mk.inj (Option.some.inj (hi.symm.trans h.last_group))
    have hend : cdiv (length : Int) g''.offloadedBlockSize = m := by
      have := cdiv_add_mul 0 m hg.pos
      rw [h.length_eq]
      simpa [cdiv, Int.mul_comm] using this
    refine ⟨m, numHitBlocks_eq hg hzero hfits (by omega) ?_, ?_, fun _ => ?_⟩
    · exact fun j key hkey _ _ _ => h.whole j key hkey
    · rw [h.length_eq]
    · rw [h.length_eq]
  by_cases hsplit : i = split
  · subst hsplit
    obtain ⟨rfl, rfl⟩ := Prod.mk.inj (Option.some.inj (hi.symm.trans h.split_group))
    have hpos := cdiv_nonneg (Int.natCast_nonneg length) hg.pos
    refine ⟨(cdiv length g''.offloadedBlockSize).toNat, numHitBlocks_eq hg hzero hfits ?_ ?_, ?_,
      fun heq => absurd heq h.ne⟩
    · omega
    · intro j key hkey _ _ hreach
      have hj := hreach w hw
      rw [h.window j key hkey]
      congr 1
      refine decide_eq_decide.mpr ⟨fun hj' => ?_, fun hj' => ⟨?_, ?_⟩⟩ <;> omega
    · have hcover := le_cdiv_mul (length : Int) hg.pos
      rw [Nat.mul_comm, Nat.cast_mul, Int.toNat_of_nonneg hpos]
      exact hcover
  · have hpos := cdiv_nonneg ((Int.natCast_nonneg length).trans hge) hg.pos
    refine ⟨(cdiv maxHit g''.offloadedBlockSize).toNat, numHitBlocks_eq hg hzero hfits le_rfl ?_, ?_,
      fun heq => absurd heq hlast⟩
    · intro j key hkey hj _ _
      rw [h.others i g'' keys'' hi hsplit hlast key (mem_of_getElem? hkey), decide_eq_true hj]
    · have hcover := le_cdiv_mul maxHit hg.pos
      rw [Nat.mul_comm, Nat.cast_mul, Int.toNat_of_nonneg hpos]
      exact hge.trans hcover

theorem SplitAnswers.not_loadable (h : q.SplitAnswers split last w length m g g' keys keys')
    (hg : 0 < g.offloadedBlockSize) (hw : 0 < w) (hzero : q.numComputedTokens = 0)
    (hmod : length % g.offloadedBlockSize ≠ 0)
    (hlt : length % g.offloadedBlockSize < (w - 1) % g.offloadedBlockSize)
    (hlarge : (w - 1) / g.offloadedBlockSize < length / g.offloadedBlockSize) :
    ¬ q.Loadable (some w) g.offloadedBlockSize keys length := by
  set s := g.offloadedBlockSize with hs
  obtain ⟨k, hk⟩ := Nat.exists_eq_add_of_lt hlarge
  have hlength := Nat.div_add_mod length s
  have hwindow := Nat.div_add_mod (w - 1) s
  have hrest := Nat.mod_lt (w - 1) hg
  have hexpand : s * (length / s) = s * ((w - 1) / s) + s * k + s := by
    rw [hk]
    ring
  have hc : cdiv (length : Int) s = (length / s : Nat) + 1 := by
    have hlo : length / s * s < length := by
      rw [Nat.mul_comm]
      omega
    have hhi : length < (length / s + 1) * s := (Nat.div_lt_iff_lt_mul hg).mp (Nat.lt_succ_self _)
    refine le_antisymm ((cdiv_le_iff _ _ hg).mpr ?_)
      (Int.add_one_le_of_lt ((lt_cdiv_iff _ _ hg).mpr ?_))
    · exact_mod_cast hhi.le
    · exact_mod_cast hlo
  have hcw : cdiv (w : Int) s = ((w - 1) / s : Nat) + 1 := by
    rw [cdiv_eq_div_add_one _ hg]
    rw [Int.natCast_ediv, Nat.cast_sub hw, Nat.cast_one]
  intro hload
  have hready := hload k (length - (w - 1)) ?_ ?_ ?_ ?_ ?_
  · obtain ⟨key, hkey, hheld⟩ := hready
    rw [h.window k key hkey, Option.some.injEq, decide_eq_true_eq, ← hs] at hheld
    omega
  · rw [Nat.mul_comm]
    omega
  · rw [Nat.mul_comm, Nat.mul_succ]
    omega
  · omega
  · omega
  · intro v hv
    cases hv
    omega

end answers

end LookupInput

end TailBlend
