import Mathlib.Data.List.GetD
import Mathlib.Data.Nat.Count

/-! Context-parallel caches: the slot-mapping kernel of a rank, and the length of its part of a
sequence. -/
namespace TailBlend.ContextParallel

/-- The constants of the kernel, with the checks of the configuration. -/
structure Layout where
  blockSize : Nat
  worldSize : Nat
  interleave : Nat
  blockSize_pos : 0 < blockSize
  worldSize_pos : 0 < worldSize
  interleave_dvd : interleave ∣ blockSize

namespace Layout
variable (L : Layout)

def virtualBlockSize : Nat := L.blockSize * L.worldSize

def virtualBlockOffset (pos : Nat) : Nat := pos - pos / L.virtualBlockSize * L.virtualBlockSize

abbrev IsLocal (rank pos : Nat) : Prop :=
  L.virtualBlockOffset pos / L.interleave % L.worldSize = rank

def localBlockOffset (pos : Nat) : Nat :=
  L.virtualBlockOffset pos / (L.worldSize * L.interleave) * L.interleave +
    L.virtualBlockOffset pos % L.interleave

/-- `_compute_slot_mapping_kernel` at one position of a request. -/
def slotMapping (blockTable : List Nat) (rank pos : Nat) : Int :=
  if L.IsLocal rank pos then
    blockTable.getD (pos / L.virtualBlockSize) 0 * L.blockSize + L.localBlockOffset pos
  else -1

/-- `get_dcp_local_seq_lens` for one request and rank. -/
def getDcpLocalSeqLens (seqLen rank : Nat) : Nat :=
  let base := seqLen / L.interleave / L.worldSize * L.interleave
  let remainder := seqLen - base * L.worldSize
  -- the lower end of `clip` is that of the subtraction
  base + min (remainder - rank * L.interleave) L.interleave

/-- How many positions below `n` are local to the rank. -/
abbrev localCount (rank n : Nat) : Nat := Nat.count (L.IsLocal rank) n

/-- The slot of the `k`-th token of a sequence that fills the blocks of a table in turn. -/
def slot (blockTable : List Nat) (k : Nat) : Nat :=
  blockTable.getD (k / L.blockSize) 0 * L.blockSize + k % L.blockSize

/-- One stripe for each rank. -/
def round : Nat := L.worldSize * L.interleave

theorem interleave_pos : 0 < L.interleave := Nat.pos_of_dvd_of_pos L.interleave_dvd L.blockSize_pos

theorem virtualBlockOffset_eq (pos : Nat) :
    L.virtualBlockOffset pos = pos % L.virtualBlockSize := Nat.mod_eq_sub_div_mul.symm

theorem isLocal_iff (rank pos : Nat) :
    L.IsLocal rank pos ↔ rank * L.interleave ≤ pos % L.round ∧
      pos % L.round < rank * L.interleave + L.interleave := by
  obtain ⟨q, hq⟩ := L.interleave_dvd
  rw [IsLocal, virtualBlockOffset_eq, virtualBlockSize, hq, Nat.mul_assoc,
    Nat.mod_mul_right_div_self, Nat.mod_mod_of_dvd _ (Nat.dvd_mul_left ..), round,
    ← Nat.mod_mul_left_div_self, Nat.div_eq_iff L.interleave_pos]
  have := L.interleave_pos
  omega

theorem getDcpLocalSeqLens_eq (n rank : Nat) :
    L.getDcpLocalSeqLens n rank = n / L.round * L.interleave +
      min (n % L.round - rank * L.interleave) L.interleave := by
  have hround : n / L.interleave / L.worldSize = n / L.round := by
    rw [Nat.div_div_eq_div_mul, round, Nat.mul_comm]
  simp only [getDcpLocalSeqLens, hround, Nat.mul_assoc, Nat.mul_comm L.interleave]
  rw [← round, ← Nat.mod_eq_sub_div_mul]

/-- A rank has as many positions below `n` as `get_dcp_local_seq_lens` says. -/
theorem localCount_eq {rank : Nat} (hrank : rank < L.worldSize) (n : Nat) :
    L.localCount rank n = L.getDcpLocalSeqLens n rank := by
  have hI := L.interleave_pos
  have hstripe : rank * L.interleave + L.interleave ≤ L.round := by
    rw [← Nat.succ_mul]
    exact Nat.mul_le_mul_right _ hrank
  induction n with
  | zero => simp [getDcpLocalSeqLens]
  | succ n ih =>
    have hmod := Nat.mod_lt n (show 0 < L.round by omega)
    have hn := Nat.div_add_mod n L.round
    simp only [Nat.count_succ, ih, getDcpLocalSeqLens_eq, isLocal_iff]
    by_cases hlast : n % L.round + 1 < L.round
    · obtain ⟨hd, hm⟩ : (n + 1) / L.round = n / L.round ∧ (n + 1) % L.round = n % L.round + 1 :=
        (Nat.div_mod_unique (by omega)).mpr ⟨by omega, hlast⟩
      rw [hd]
      split_ifs <;> omega
    · obtain ⟨hd, hm⟩ : (n + 1) / L.round = n / L.round + 1 ∧ (n + 1) % L.round = 0 :=
        (Nat.div_mod_unique (by omega)).mpr ⟨by rw [Nat.mul_succ]; omega, by omega⟩
      rw [hd, Nat.succ_mul]
      split_ifs <;> omega

/-- A local position goes into the slot of its place among the local positions. -/
theorem slotMapping_local {rank pos : Nat} (blockTable : List Nat) (hrank : rank < L.worldSize)
    (hlocal : L.IsLocal rank pos) :
    pos / L.virtualBlockSize = L.localCount rank pos / L.blockSize ∧
      L.slotMapping blockTable rank pos = L.slot blockTable (L.localCount rank pos) := by
  obtain ⟨q, hq⟩ := L.interleave_dvd
  have hI := L.interleave_pos
  have hvirtual : L.virtualBlockSize = L.round * q := by
    rw [virtualBlockSize, hq, round, Nat.mul_right_comm, Nat.mul_comm L.interleave]
  obtain ⟨hle, hlt⟩ := (L.isLocal_iff rank pos).mp hlocal
  obtain ⟨c, hc⟩ := Nat.le.dest hle
  have hcI : c < L.interleave := by omega
  have hk : c + L.interleave * (pos / L.round) = L.localCount rank pos := by
    rw [L.localCount_eq hrank, getDcpLocalSeqLens_eq, Nat.mul_comm]
    omega
  obtain ⟨hdiv, hmod⟩ := (Nat.div_mod_unique hI).mpr ⟨hk, hcI⟩
  have hblock : pos / L.virtualBlockSize = L.localCount rank pos / L.blockSize := by
    rw [hq, hvirtual, ← Nat.div_div_eq_div_mul, ← Nat.div_div_eq_div_mul, hdiv]
  have hstripe : pos % L.virtualBlockSize % L.interleave = c := by
    rw [← Nat.mod_mod_of_dvd _ (Nat.dvd_mul_left L.interleave L.worldSize), ← round, hvirtual,
      Nat.mod_mul_right_mod, ← hc, Nat.mul_add_mod_of_lt hcI]
  have hoffset : L.localBlockOffset pos = L.localCount rank pos % L.blockSize := by
    rw [localBlockOffset, virtualBlockOffset_eq, hstripe, hvirtual, ← round,
      Nat.mod_mul_right_div_self, hq, Nat.mod_mul, hdiv, hmod, Nat.mul_comm, Nat.add_comm]
  refine ⟨hblock, ?_⟩
  rw [slotMapping, if_pos hlocal, hblock, hoffset]
  rfl

theorem slot_injOn {blockTable : List Nat} (hnodup : blockTable.Nodup) {k k' : Nat}
    (hk : k / L.blockSize < blockTable.length) (hk' : k' / L.blockSize < blockTable.length)
    (h : L.slot blockTable k = L.slot blockTable k') : k = k' := by
  have hdivMod (k : Nat) : L.slot blockTable k / L.blockSize = blockTable.getD (k / L.blockSize) 0 ∧
      L.slot blockTable k % L.blockSize = k % L.blockSize :=
    (Nat.div_mod_unique L.blockSize_pos).mpr
      ⟨by rw [slot, Nat.mul_comm, Nat.add_comm], Nat.mod_lt _ L.blockSize_pos⟩
  have hblock := (hdivMod k).1.symm.trans (h ▸ (hdivMod k').1)
  have hoffset := (hdivMod k).2.symm.trans (h ▸ (hdivMod k').2)
  rw [List.getD_eq_getElem _ _ hk, List.getD_eq_getElem _ _ hk', hnodup.getElem_inj_iff] at hblock
  rw [← Nat.div_add_mod k L.blockSize, hblock, hoffset, Nat.div_add_mod]

/-- Each position is local to one rank; the local positions of a rank fill the blocks of its table
in turn, each with a slot of its own, and are as many as `get_dcp_local_seq_lens` says; the other
positions get no slot. -/
theorem slotMapping_partition {blockTable : List Nat} (hnodup : blockTable.Nodup) {n : Nat}
    (hn : n ≤ L.virtualBlockSize * blockTable.length) :
    (∀ pos < n, ∃! rank, rank < L.worldSize ∧ L.IsLocal rank pos) ∧
    ∀ rank < L.worldSize,
      L.localCount rank n = L.getDcpLocalSeqLens n rank ∧
      (∀ pos < n, L.IsLocal rank pos →
        L.slotMapping blockTable rank pos = L.slot blockTable (L.localCount rank pos) ∧
        ∃ b ∈ blockTable, b * L.blockSize ≤ L.slotMapping blockTable rank pos ∧
          L.slotMapping blockTable rank pos < (b + 1) * L.blockSize) ∧
      (∀ pos < n, ¬L.IsLocal rank pos → L.slotMapping blockTable rank pos = -1) ∧
      ∀ pos < n, ∀ pos' < n, L.IsLocal rank pos → L.IsLocal rank pos' →
        L.slotMapping blockTable rank pos = L.slotMapping blockTable rank pos' → pos = pos' := by
  have hplace {rank pos : Nat} (hrank : rank < L.worldSize) (hpos : pos < n)
      (hlocal : L.IsLocal rank pos) : L.localCount rank pos / L.blockSize < blockTable.length := by
    rw [← (L.slotMapping_local blockTable hrank hlocal).1]
    exact Nat.div_lt_of_lt_mul (hpos.trans_le hn)
  refine ⟨fun pos _ => ⟨_, ⟨Nat.mod_lt _ L.worldSize_pos, rfl⟩, fun _ h => h.2.symm⟩,
    fun rank hrank => ⟨L.localCount_eq hrank n, fun pos hpos hlocal => ?_,
      fun pos _ hother => if_neg hother, ?_⟩⟩
  · have hslot := (L.slotMapping_local blockTable hrank hlocal).2
    refine ⟨hslot, _, List.getElem_mem (hplace hrank hpos hlocal), ?_⟩
    have hlt := Nat.mod_lt (L.localCount rank pos) L.blockSize_pos
    rw [hslot, slot, List.getD_eq_getElem _ _ (hplace hrank hpos hlocal), Int.add_mul]
    omega
  · intro pos hpos pos' hpos' hlocal hlocal' heq
    rw [(L.slotMapping_local blockTable hrank hlocal).2,
      (L.slotMapping_local blockTable hrank hlocal').2] at heq
    exact Nat.count_injective hlocal hlocal' (L.slot_injOn hnodup (hplace hrank hpos hlocal)
      (hplace hrank hpos' hlocal') (by exact_mod_cast heq))

theorem slotMapping_partition_two :
    ∃ L : Layout, L.worldSize = 2 ∧ L.localCount 1 7 = L.getDcpLocalSeqLens 7 1 :=
  ⟨⟨2, 2, 1, by decide, by decide, by decide⟩, rfl,
    ((slotMapping_partition _ (show [5, 3].Nodup by decide) (by decide)).2 1 (by decide)).1⟩

end Layout
end TailBlend.ContextParallel
