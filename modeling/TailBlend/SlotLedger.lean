import TailBlend.PrivateBlocks

/-! What a manager knows about a request between two calls of `allocate_slots`: nothing
before its admission, and blocks for all granted tokens afterwards. -/
namespace TailBlend.Ownership
open BlockPool Manager
variable {α : Type} [DecidableEq α]

def specBlocks (spec : KVCacheSpec) : Nat :=
  match spec.kind with
  | .mamba .align n => n
  | _ => 0

section
variable (m : Manager α)

structure Idle (r : α) : Prop where
  blocks : m.blocks r = []
  cached : m.numCachedBlock.get? r = none
  allocated : r ∉ m.allocatedBlockReqs
  last : m.lastStateBlockIdx.get? r = none

def Plain (r : α) : Prop :=
  (∀ n, m.spec.kind ≠ .mamba .align n) →
    r ∉ m.allocatedBlockReqs ∧ m.lastStateBlockIdx.get? r = none

/-- A request with slots for `granted` tokens. -/
structure Serving (r : α) (granted : Int) : Prop where
  covers : m.spec.kind ≠ .crossAttention →
    granted ≤ ((m.blocks r).length - specBlocks m.spec) * m.blockSize
  cached : numCached m r + specBlocks m.spec ≤ (m.blocks r).length
  allocated : ∀ n, m.spec.kind = .mamba .align n → r ∈ m.allocatedBlockReqs ∨ n = 0
  last : ∀ idx, m.lastStateBlockIdx.get? r = some idx → 0 ≤ idx ∧ idx < (m.blocks r).length
  plain : Plain m r

/-- What the manager knows about a request with `granted` tokens, if it has been admitted. -/
def Entry (r : α) : Option Int → Prop
  | none => Idle m r
  | some granted => Serving m r granted

def Ledger (granted : α → Option Int) : Prop := ∀ r, Entry m r (granted r)

end

variable {m m' : Manager α} {granted : α → Option Int} {r a : α} {g t n : Int} {p : BlockPool}
  {m₁ m₂ m₃ : Manager α}

theorem Ledger.idle (h : Ledger m granted) (hr : granted r = none) : Idle m r := by
  have := h r
  rwa [hr] at this

theorem Ledger.serving (h : Ledger m granted) (hr : granted r = some g) : Serving m r g := by
  have := h r
  rwa [hr] at this

theorem Serving.numFull_le (h : Serving m r g) (hk : m.spec.kind ≠ .crossAttention) (ht : t ≤ g) :
    (t / m.blockSize).toNat ≤ (m.blocks r).length := by
  have hb : (0 : Int) < m.blockSize := by exact_mod_cast m.spec.blockSize_pos
  have hle : t / m.blockSize ≤ (m.blocks r).length - specBlocks m.spec :=
    Int.ediv_le_of_le_mul hb (ht.trans (h.covers hk))
  omega

structure SameFor (m m' : Manager α) (a : α) : Prop where
  blocks : m'.blocks a = m.blocks a
  cached : m'.numCachedBlock.get? a = m.numCachedBlock.get? a
  allocated : a ∈ m'.allocatedBlockReqs ↔ a ∈ m.allocatedBlockReqs
  last : m'.lastStateBlockIdx.get? a = m.lastStateBlockIdx.get? a

theorem SameFor.refl (m : Manager α) (a : α) : SameFor m m a := ⟨rfl, rfl, Iff.rfl, rfl⟩

theorem SameFor.trans (h : SameFor m1 m2 a) (h' : SameFor m2 m3 a) :
    SameFor m1 m3 a :=
  ⟨h'.blocks.trans h.blocks, h'.cached.trans h.cached, h'.allocated.trans h.allocated,
    h'.last.trans h.last⟩

section
variable (h : SameFor m m' a)
include h

theorem SameFor.numCached : numCached m' a = numCached m a := by
  simp only [Ownership.numCached, Dict.getD, h.cached]

theorem SameFor.idle (hi : Idle m a) : Idle m' a :=
  ⟨h.blocks.trans hi.blocks, h.cached.trans hi.cached, fun ha => hi.allocated (h.allocated.mp ha),
    h.last.trans hi.last⟩

theorem SameFor.serving (hs : m'.spec = m.spec) (hi : Serving m a g) :
    Serving m' a g := by
  refine ⟨?_, ?_, ?_, ?_, ?_⟩
  · rw [h.blocks, blockSize, hs]
    exact hi.covers
  · rw [h.blocks, h.numCached, hs]
    exact hi.cached
  · intro n hk
    rw [h.allocated]
    exact hi.allocated n (hs ▸ hk)
  · rw [h.blocks, h.last]
    exact hi.last
  · rw [Plain, hs, h.allocated, h.last]
    exact hi.plain

theorem SameFor.entry {g : Option Int} (hs : m'.spec = m.spec)
    (hi : Entry m a g) : Entry m' a g := by
  cases g with
  | none => exact h.idle hi
  | some g => exact h.serving hs hi

end

theorem Ledger.update {g : Option Int} (h : Ledger m granted) (hs : m'.spec = m.spec)
    (hother : ∀ a, a ≠ r → SameFor m m' a) (hself : Entry m' r g) :
    Ledger m' (Function.update granted r g) := by
  intro a
  by_cases ha : a = r
  · subst ha
    rw [Function.update_self]
    exact hself
  · rw [Function.update_of_ne ha]
    exact (hother a ha).entry hs (h a)

/-- The last state of align mode is an index into the list. -/
def LastOK (m : Manager α) (r : α) : Prop :=
  ∀ idx, m.lastStateBlockIdx.get? r = some idx → 0 ≤ idx ∧ idx < (m.blocks r).length

theorem Ledger.lastOK (h : Ledger m granted) (r : α) : LastOK m r := by
  have := h r
  cases hg : granted r with
  | none =>
    rw [hg] at this
    intro idx hidx
    rw [this.last] at hidx
    cases hidx
  | some g =>
    rw [hg] at this
    exact this.last

/-! Removing skipped blocks. -/

/-- Blocks of the list were nulled, all of them outside the window. -/
structure Trimmed (m m' : Manager α) (r : α) (numSkippedTokens : Int) : Prop where
  spec : m'.spec = m.spec
  groupId : m'.groupId = m.groupId
  other : ∀ a, a ≠ r → SameFor m m' a
  length : (m'.blocks r).length = (m.blocks r).length
  cached : m'.numCachedBlock = m.numCachedBlock
  allocated : m'.allocatedBlockReqs = m.allocatedBlockReqs
  last : m'.lastStateBlockIdx = m.lastStateBlockIdx
  thisStep : m'.cachedBlocksThisStep = m.cachedBlocksThisStep
  admission : m'.maxAdmissionBlocksPerRequest = m.maxAdmissionBlocksPerRequest
  occ : ∀ b, occ m' b + (m.blocks r).count b = occ m b + (m'.blocks r).count b
  null : ∀ i : Nat, (m'.blocks r)[i]? = (m.blocks r)[i]? ∨
    (m'.blocks r)[i]? = some 0 ∧ ((i : Int) + 1) * m.blockSize ≤ numSkippedTokens

theorem Trimmed.refl (m : Manager α) (r : α) (n : Int) : Trimmed m m r n :=
  ⟨rfl, rfl, fun a _ => SameFor.refl m a, rfl, rfl, rfl, rfl, rfl, rfl, fun _ => rfl,
    fun _ => Or.inl rfl⟩

theorem Trimmed.trans (h : Trimmed m1 m2 r n) (h' : Trimmed m2 m3 r n) : Trimmed m1 m3 r n := by
  refine ⟨h'.spec.trans h.spec, h'.groupId.trans h.groupId,
    fun a ha => (h.other a ha).trans (h'.other a ha), h'.length.trans h.length,
    h'.cached.trans h.cached, h'.allocated.trans h.allocated, h'.last.trans h.last,
    h'.thisStep.trans h.thisStep, h'.admission.trans h.admission, fun b => ?_, fun i => ?_⟩
  · have h1 := h.occ b
    have h2 := h'.occ b
    omega
  have hbs : m2.blockSize = m1.blockSize := congrArg KVCacheSpec.blockSize h.spec
  rcases h'.null i with h2 | h2
  · rcases h.null i with h1 | h1
    · exact .inl (h2.trans h1)
    · exact .inr ⟨h2.trans h1.1, h1.2⟩
  · exact .inr ⟨h2.1, hbs ▸ h2.2⟩

theorem Trimmed.mono {k : Int} (h : Trimmed m m' r n) (hn : n ≤ k) : Trimmed m m' r k :=
  { h with null := fun i => (h.null i).imp id (fun h => ⟨h.1, h.2.trans hn⟩) }

theorem sameFor_setBlocks (m : Manager α) (ha : a ≠ r) (l : List Nat) :
    SameFor m (m.setBlocks r l) a :=
  ⟨by simp [blocks, setBlocks, ha], rfl, Iff.rfl, rfl⟩

theorem trimmed_setBlocks {l : List Nat} (hlen : l.length = (m.blocks r).length)
    (hnull : ∀ i : Nat, l[i]? = (m.blocks r)[i]? ∨
      l[i]? = some 0 ∧ ((i : Int) + 1) * m.blockSize ≤ n) : Trimmed m (m.setBlocks r l) r n := by
  have hb : (m.setBlocks r l).blocks r = l := by simp [blocks, setBlocks]
  have hc : Changed m (m.setBlocks r l) r l := changed_of_set rfl rfl rfl
  exact ⟨rfl, rfl, fun a ha => sameFor_setBlocks m ha l, by rw [hb, hlen], rfl, rfl, rfl, rfl, rfl,
    fun b => by rw [hb]; exact hc.occ b, by rw [hb]; exact hnull⟩

theorem nullSkipped_of_le (n : Nat) (bs : List Nat) {i : Nat} (hi : n ≤ i) :
    (nullSkipped n bs).1[i]? = bs[i]? := by
  induction n generalizing bs with
  | zero => rfl
  | succ k ih =>
    unfold nullSkipped
    split
    · rfl
    · rw [ih (bs.set k 0) (by omega), List.getElem?_set_ne (by omega)]

theorem baseRemove_trimmed (p : BlockPool) (m : Manager α) (r : α) (t : Int) :
    Trimmed m (m.baseRemoveSkippedBlocks p r t).2 r (m.spec.getNumSkippedTokens t) := by
  unfold baseRemoveSkippedBlocks
  simp only
  split_ifs with hle
  · exact Trimmed.refl m r _
  refine trimmed_setBlocks (nullSkipped_length _ _) (fun i => ?_)
  by_cases hi : min (m.numSkippedBlocks t) (m.blocks r).length ≤ i
  · exact .inl (nullSkipped_of_le _ _ hi)
  rcases nullSkipped_null (min (m.numSkippedBlocks t) (m.blocks r).length) (m.blocks r) i
    with h | h
  · exact .inl h
  refine .inr ⟨h, ?_⟩
  have hbs : (0 : Int) < m.blockSize := by exact_mod_cast m.spec.blockSize_pos
  have hlt : (i : Int) + 1 ≤ m.spec.getNumSkippedTokens t / m.blockSize := by
    have : i < m.numSkippedBlocks t := by omega
    unfold numSkippedBlocks at this
    omega
  exact (Int.le_ediv_iff_mul_le hbs).mp hlt

theorem freeLastState_total (hlast : LastOK m r) (t : Int) :
    ∃ p' m', m.freeLastState p r t = .ok (p', m') ∧ Trimmed m m' r (t - 1) := by
  unfold freeLastState
  split
  · exact ⟨p, m, rfl, Trimmed.refl m r _⟩
  rename_i idx hidx
  obtain ⟨h0, hlt⟩ := hlast idx hidx
  by_cases ht : idx < cdiv t m.blockSize - 1
  · rw [pyIndex_of_nonneg h0 hlt]
    simp only
    split_ifs
    · refine ⟨_, _, rfl, trimmed_setBlocks (by simp) (fun i => ?_)⟩
      by_cases hi : idx.toNat = i
      · subst hi
        refine .inr ⟨?_, ?_⟩
        · rw [List.getElem?_set_self (by omega)]
        have hpos : 0 < m.blockSize := m.spec.blockSize_pos
        have := (lt_cdiv_iff t (idx + 1) hpos).mp (by omega)
        rw [Int.toNat_of_nonneg h0]
        omega
      · exact .inl (List.getElem?_set_ne hi)
    · exact ⟨p, m, rfl, Trimmed.refl m r _⟩
  · rw [if_neg ht]
    exact ⟨p, m, rfl, Trimmed.refl m r _⟩

theorem removeSkipped_total (p : BlockPool) (hlast : LastOK m r) (ht : 0 ≤ t) :
    ∃ p' m', m.removeSkippedBlocks p r t = .ok (p', m') ∧
      Trimmed m m' r (m.spec.getNumSkippedTokens t) := by
  unfold removeSkippedBlocks
  split
  · rename_i mode n hk
    set t' := max 0 (t - n) with ht'
    have hskip : m.spec.getNumSkippedTokens t' ≤ m.spec.getNumSkippedTokens t := by
      simp only [KVCacheSpec.getNumSkippedTokens, hk]
      omega
    have hbase := baseRemove_trimmed p m r t'
    split_ifs with hmode
    · have hlast1 : LastOK (m.baseRemoveSkippedBlocks p r t').2 r := by
        intro idx hidx
        rw [hbase.last] at hidx
        rw [hbase.length]
        exact hlast idx hidx
      obtain ⟨p2, m2, hrun, htrim⟩ := freeLastState_total
        (p := (m.baseRemoveSkippedBlocks p r t').1) hlast1 t'
      have heq : t' - 1 = m.spec.getNumSkippedTokens t' := by
        simp only [KVCacheSpec.getNumSkippedTokens, hk]
      rw [heq] at htrim
      exact ⟨p2, m2, hrun, (hbase.trans htrim).mono hskip⟩
    · exact ⟨_, _, rfl, hbase.mono hskip⟩
  · exact ⟨_, _, rfl, baseRemove_trimmed p m r t⟩

structure Released (p p' : BlockPool) : Prop where
  hash : p'.blockHash = p.blockHash
  map : p'.cachedBlockHashToBlock = p.cachedBlockHashToBlock
  numFree : p.numFreeBlocks ≤ p'.numFreeBlocks
  null : p'.refCnt 0 = p.refCnt 0

theorem Released.refl (p : BlockPool) : Released p p := ⟨rfl, rfl, le_rfl, rfl⟩

theorem Released.trans {q r : BlockPool} (h : Released p q) (h' : Released q r) : Released p r :=
  ⟨h'.hash.trans h.hash, h'.map.trans h.map, h.numFree.trans h'.numFree, h'.null.trans h.null⟩

theorem removeSkipped_private {p' : BlockPool} {ms1 ms2 : List (Manager α)}
    (ho : Owned p (ms1 ++ m :: ms2)) (h : Private p (ms1 ++ m :: ms2))
    (he : m.removeSkippedBlocks p r t = .ok (p', m')) :
    Kept p p' ms1 m m' ms2 ∧ Private p' (ms1 ++ m' :: ms2) ∧ Released p p' := by
  refine removeSkipped_moves (fun q a => Kept p q ms1 m a ms2 ∧ Private q (ms1 ++ a :: ms2) ∧
    Released p q) ⟨Kept.refl ho, h, Released.refl p⟩ ?_ he
  rintro q a l removed ⟨hk, hp, hr⟩ hmove
  have hc : Changed a (a.setBlocks r l) r l := changed_of_set rfl rfl rfl
  have hfreed := hk.owned.freed hmove.count
  refine ⟨hk.trans (hk.owned.release removed hc
    (hk.owned.align_self.of_changed hc rfl hmove.length.ge) hmove.count), ?_, hr.trans ?_⟩
  · refine hp.release hk.owned hc (fun _ _ => rfl) (fun i b hget hb hi => ⟨hi, ?_⟩) hmove.count
      hfreed
    rcases hmove.null i with hsame | hnull
    · rw [← hsame, hget]
    · rw [hnull] at hget
      exact absurd (Option.some.inj hget).symm hb
  · refine ⟨hfreed.hash, hfreed.cached, hfreed.numFree, ?_⟩
    have hnot : 0 ∉ removed := fun h0 => hmove.nonnull 0 h0 rfl
    rw [hfreed.refCnt, List.count_eq_zero.mpr hnot]
    simp

theorem Trimmed.idle (h : Trimmed m m' r n) (hi : Idle m r) : Idle m' r := by
  refine ⟨List.length_eq_zero_iff.mp ?_, h.cached ▸ hi.cached, h.allocated ▸ hi.allocated,
    h.last ▸ hi.last⟩
  rw [h.length, hi.blocks]
  rfl

theorem Trimmed.serving (h : Trimmed m m' r n) (hi : Serving m r g) : Serving m' r g := by
  refine ⟨?_, ?_, ?_, ?_, ?_⟩
  · rw [h.length, blockSize, h.spec]
    exact hi.covers
  · rw [h.length, h.spec, numCached, h.cached]
    exact hi.cached
  · rw [h.spec, h.allocated]
    exact hi.allocated
  · rw [h.length, h.last]
    exact hi.last
  · rw [Plain, h.spec, h.allocated, h.last]
    exact hi.plain

theorem Trimmed.ledger (h : Trimmed m m' r n) (hl : Ledger m granted) : Ledger m' granted := by
  have := hl.update (g := granted r) h.spec h.other (by
    have := hl r
    cases hg : granted r with
    | none =>
      rw [hg] at this
      exact h.idle this
    | some g =>
      rw [hg] at this
      exact h.serving this)
  rwa [Function.update_eq_self] at this

end TailBlend.Ownership
