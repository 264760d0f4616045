import TailBlend.Lib.Dict
import TailBlend.Lib.Py
import Mathlib.Data.List.Sort

/-! Which heads a worker reads from which ranks of an engine of another tensor-parallel size. -/
namespace TailBlend.Nixl

inductive GroupSpec where
  | attention
  | mamba
  deriving DecidableEq

structure TPMapping where
  sourceRanksPerGroup : List (List Nat)
  allSourceRanks : List Nat
  rankToAttentionSlot : Dict Nat Nat
  rankOffsetFactor : Int

/-- The sorted `unique_idx` of `np.unique(heads, return_index=True)`. -/
def uniqueIdx (heads : List Nat) : List Nat :=
  (List.range heads.length).filter (fun i => ∀ j < i, heads[j]? ≠ heads[i]?)

structure TransferTopology where
  tpRank : Nat
  tpSize : Nat
  isMla : Bool
  totalNumKvHeads : Nat

namespace TransferTopology
variable (t : TransferTopology) (remoteTpSize : Nat)

def attnRanks : List Nat :=
  if t.isMla ∨ t.tpSize ≥ remoteTpSize then [t.tpRank * remoteTpSize / t.tpSize]
  else
    let absTp := remoteTpSize / t.tpSize
    let start := t.tpRank * absTp
    let heads := (List.range absTp).map (fun i => (start + i) * t.totalNumKvHeads / remoteTpSize)
    (uniqueIdx heads).map (start + ·)

def ssmRanks (groupSpecTypes : List GroupSpec) : List Nat :=
  if .mamba ∈ groupSpecTypes then
    if t.tpSize < remoteTpSize then
      let absTp := remoteTpSize / t.tpSize
      List.range' (t.tpRank * absTp) absTp
    else t.attnRanks remoteTpSize
  else []

def rankOffsetFactor : Int :=
  if t.isMla ∨ t.tpSize ≤ remoteTpSize then 0
  else if t.tpSize > t.totalNumKvHeads then
    let localHead := t.tpRank * t.totalNumKvHeads / t.tpSize
    let pStart := (t.attnRanks remoteTpSize).headD 0 * t.totalNumKvHeads / remoteTpSize
    (localHead : Int) - pStart
  else (t.tpRank % (t.tpSize / remoteTpSize) : Nat)

def headToSlot : Dict Nat Nat :=
  Dict.empty.setAll ((t.attnRanks remoteTpSize).zipIdx.map
    (fun e => (e.1 * t.totalNumKvHeads / remoteTpSize, e.2)))

def computeTpMapping (groupSpecTypes : List GroupSpec) : TPMapping :=
  let attnRanks := t.attnRanks remoteTpSize
  let ssmRanks := t.ssmRanks remoteTpSize groupSpecTypes
  let allRanks := (attnRanks ++ ssmRanks).dedup.insertionSort (· ≤ ·)
  { sourceRanksPerGroup := groupSpecTypes.map (fun g => if g = .mamba then ssmRanks else attnRanks)
    allSourceRanks := allRanks
    rankToAttentionSlot := Dict.empty.setAll (allRanks.map (fun r =>
      (r, (t.headToSlot remoteTpSize).getD (r * t.totalNumKvHeads / remoteTpSize) 0)))
    rankOffsetFactor := t.rankOffsetFactor remoteTpSize }

end TransferTopology

/-! Descriptors: an address and a length on the device. -/

abbrev Desc := Int × Nat

structure Caches where
  numBlocks : Nat
  baseAddresses : List Int
  blockLens : List Nat
  isKvLayoutBlocksFirst : Bool

/-- `get_backend_aware_kv_block_len`. -/
def Caches.kvBlockLen (c : Caches) (blockLen : Nat) : Nat :=
  if c.isKvLayoutBlocksFirst then blockLen / 2 else blockLen

/-- One descriptor per block, `stride` apart. -/
def blockDescs (numBlocks : Nat) (start : Int) (stride len : Nat) : List Desc :=
  (List.range numBlocks).map (fun blockId => (start + (blockId * stride : Nat), len))

def buildFaLocal (c : Caches) (blockSizeRatio : Nat) : List Desc :=
  (c.baseAddresses.zip c.blockLens).flatMap fun e =>
    let kvBlockLen := c.kvBlockLen e.2 / blockSizeRatio
    let pageStride := e.2 / blockSizeRatio
    blockDescs (c.numBlocks * blockSizeRatio) e.1 pageStride kvBlockLen ++
      if c.isKvLayoutBlocksFirst then
        blockDescs (c.numBlocks * blockSizeRatio) (e.1 + kvBlockLen) pageStride (c.kvBlockLen e.2)
      else []

def TPMapping.sourceRanks (plan : TPMapping) (groupSpecTypes : List GroupSpec) (g : GroupSpec) :
    List Nat :=
  plan.sourceRanksPerGroup.getD (groupSpecTypes.idxOf g) []

def buildFaRemote (plan : TPMapping) (groupSpecTypes : List GroupSpec) (c remote : Caches)
    (blockSizeRatio : Nat) : List Desc :=
  let numAttnReads := (plan.sourceRanks groupSpecTypes .attention).length
  ((remote.baseAddresses.zip remote.blockLens).zip c.blockLens).flatMap fun e =>
    let remoteKvBlockLen := c.kvBlockLen e.2 / blockSizeRatio
    let localBlockLen := if blockSizeRatio > 1 then remoteKvBlockLen else c.kvBlockLen e.2
    let rankOffset := plan.rankOffsetFactor * remoteKvBlockLen
    blockDescs remote.numBlocks (e.1.1 + rankOffset) e.1.2 (localBlockLen / numAttnReads) ++
      if c.isKvLayoutBlocksFirst then
        blockDescs remote.numBlocks (e.1.1 + rankOffset + (e.1.2 / 2 : Nat)) e.1.2
          (c.kvBlockLen e.2 / numAttnReads)
      else []

def buildLocalSplitsFromPlan (plan : TPMapping) (groupSpecTypes : List GroupSpec)
    (srcBlocksData : List Desc) (numFaDescs : Nat) : List (List Desc) :=
  let faNumSplits := (plan.sourceRanks groupSpecTypes .attention).length
  let ssmNumSplits := if numFaDescs < srcBlocksData.length then
    (plan.sourceRanks groupSpecTypes .mamba).length else 0
  plan.allSourceRanks.zipIdx.map fun p =>
    srcBlocksData.zipIdx.map fun e =>
      if e.2 < numFaDescs then
        let chunk := e.1.2 / faNumSplits
        (e.1.1 + (plan.rankToAttentionSlot.getD p.1 0 * chunk : Nat), chunk)
      else
        let chunk := e.1.2 / ssmNumSplits
        (e.1.1 + (p.2 * chunk : Nat), chunk)

structure Read where
  remoteRank : Nat
  dst : Desc
  src : Desc

def localXferSideHandle (t : TransferTopology) (remoteTpSize : Nat)
    (groupSpecTypes : List GroupSpec) (srcBlocksData : List Desc) (i : Nat) : Option (List Desc) :=
  if t.tpSize < remoteTpSize ∧ ¬t.isMla then
    (buildLocalSplitsFromPlan (t.computeTpMapping remoteTpSize groupSpecTypes) groupSpecTypes
      srcBlocksData srcBlocksData.length)[i]?
  else some srcBlocksData

/-- The reads of `_read_blocks_for_req` for one block in one region, whose descriptors are those
that `_compute_desc_ids` names. -/
def plannedReads (t : TransferTopology) (remoteTpSize : Nat) (groupSpecTypes : List GroupSpec)
    (c : Caches) (remote : Nat → Caches) (region blockId remoteBlockId : Nat) : List Read :=
  let plan := t.computeTpMapping remoteTpSize groupSpecTypes
  plan.allSourceRanks.zipIdx.filterMap fun p => do
    let handle ← localXferSideHandle t remoteTpSize groupSpecTypes (buildFaLocal c 1) p.2
    let dst ← handle[region * c.numBlocks + blockId]?
    let src ← (buildFaRemote plan groupSpecTypes c (remote p.1) 1)[
      region * (remote p.1).numBlocks + remoteBlockId]?
    return ⟨p.1, dst, src⟩

end TailBlend.Nixl
