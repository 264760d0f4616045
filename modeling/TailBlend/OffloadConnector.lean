import TailBlend.OffloadLookup
import TailBlend.BlockPool
import TailBlend.Lib.Dict

/-! The scheduler side of the offloading connector: its tables of requests and transfer jobs, and
the job that loads a hit. -/
namespace TailBlend
variable {ρ κ σ μ : Type}

structure RequestGroupState (κ : Type) where
  offloadKeys : List κ
  blockIds : List Nat
  /-- The next block, of the offloaded size, to store. -/
  nextStoredBlockIdx : Nat
  numHitBlocks : Nat

/-- `RequestOffloadState` without the request; `doRemoteDecode` is read off its parameters. -/
structure RequestOffloadState (κ : Type) where
  groupStates : List (RequestGroupState κ)
  doRemoteDecode : Bool
  numLocallyComputedTokens : Nat
  transferJobs : List Nat

structure GPULoadStoreSpec where
  blockIds : List Nat
  groupSizes : List Nat
  blockIndices : List Nat

/-- A load reads `offloadSpec` and writes `gpuSpec`, a store the other way. -/
structure TransferJob (ρ σ : Type) where
  reqId : ρ
  gpuSpec : GPULoadStoreSpec
  offloadSpec : σ

structure TransferJobStatus (ρ κ : Type) where
  reqId : ρ
  /-- Workers that have not reported yet. -/
  pendingCount : Nat
  keys : List κ
  isStore : Bool
  nonSlidingWindowBlockIds : Option (List Nat)
  slidingWindowBlockIds : Option (List Nat)

structure SchedulerOffloadConfig where
  kvGroupConfigs : List GroupOffloadConfig
  blockSizeFactor : Nat
  numWorkers : Nat

structure OffloadingManager (κ σ μ : Type) where
  prepareLoad : μ → List κ → Except PyError (σ × μ)

structure OffloadingConnectorScheduler (ρ κ σ μ : Type) where
  config : SchedulerOffloadConfig
  manager : μ
  reqStatus : Dict ρ (RequestOffloadState κ)
  currentBatchLoadJobs : Dict Nat (TransferJob ρ σ)
  currentBatchJobsToFlush : List Nat
  /-- `None` without prefix caching on the GPU. -/
  blocksBeingLoaded : Option (List κ)
  jobCounter : Nat
  jobs : Dict Nat (TransferJobStatus ρ κ)
  blockIdToPendingJobs : Dict Nat (List Nat)

structure GroupLoad (κ : Type) where
  keysToLoad : List κ
  dstBlockIds : List Nat
  numPendingGpuBlocks : Nat
  numLocallyComputedGpuBlocks : Nat
  numBlocks : Nat

/-- The blocks before the first one that is neither null nor cached. -/
def numLocallyComputedGpuBlocks (p : BlockPool) (blocks : List Nat) : Nat :=
  blocks.findIdx (fun b => b ≠ 0 && (p.blockHash b).isNone)

def loadGroup (p : BlockPool) (blockSizeFactor numLocallyComputedTokens numCachedTokens : Nat)
    (g : GroupOffloadConfig) (offloadKeys : List κ) (groupBlocks : List Nat) :
    Except PyError (GroupLoad κ) := do
  let numGpuBlocks := (cdiv numCachedTokens g.gpuBlockSize).toNat
  pyAssert (numGpuBlocks ≤ groupBlocks.length) ""
  let gpuBlocks := groupBlocks.take numGpuBlocks
  let computed := numLocallyComputedGpuBlocks p gpuBlocks
  pyAssert (numLocallyComputedTokens ≤ computed * g.gpuBlockSize) ""
  let pending := numGpuBlocks - computed
  pyAssert (∀ w ∈ g.slidingWindowSizeInBlocks, pending ≤ w * blockSizeFactor) ""
  let numBlocks := (cdiv numCachedTokens g.offloadedBlockSize).toNat
  pyAssert (numBlocks ≤ offloadKeys.length) ""
  return {
    keysToLoad :=
      if pending = 0 then [] else (offloadKeys.take numBlocks).drop (computed / blockSizeFactor)
    dstBlockIds := gpuBlocks.drop computed
    numPendingGpuBlocks := pending
    numLocallyComputedGpuBlocks := computed
    numBlocks := numBlocks }

def RequestOffloadState.afterLoad (st : RequestOffloadState κ) (loads : List (GroupLoad κ))
    (jobId : Nat) : RequestOffloadState κ :=
  { st with
    groupStates :=
      if st.doRemoteDecode then st.groupStates
      else st.groupStates.zipIdx.map (fun (group, i) =>
        { group with nextStoredBlockIdx :=
          (loads[i]?.map GroupLoad.numBlocks).getD group.nextStoredBlockIdx })
    transferJobs := jobId :: st.transferJobs }

namespace OffloadingConnectorScheduler

def loadGroups (c : OffloadingConnectorScheduler ρ κ σ μ) (p : BlockPool)
    (st : RequestOffloadState κ) (blocks : List (List Nat)) (numExternalTokens : Nat) :
    Except PyError (List (GroupLoad κ)) :=
  (c.config.kvGroupConfigs.zip (st.groupStates.zip blocks)).mapM (fun (g, group, groupBlocks) =>
    loadGroup p c.config.blockSizeFactor st.numLocallyComputedTokens
      (st.numLocallyComputedTokens + numExternalTokens) g group.offloadKeys groupBlocks)

def pendingJobs (c : OffloadingConnectorScheduler ρ κ σ μ) (blockIds : List Nat) : List Nat :=
  blockIds.flatMap (fun bid => c.blockIdToPendingJobs.getD bid [])

variable [DecidableEq ρ]

def updateStateAfterAlloc (ops : OffloadingManager κ σ μ)
    (c : OffloadingConnectorScheduler ρ κ σ μ) (p : BlockPool) (requestId : ρ)
    (blocks : List (List Nat)) (numExternalTokens : Nat) :
    Except PyError (OffloadingConnectorScheduler ρ κ σ μ) :=
  if numExternalTokens = 0 then .ok c
  else match c.reqStatus.get? requestId with
  | none => .error .keyError
  | some st => do
    let loads ← c.loadGroups p st blocks numExternalTokens
    let keysToLoad := loads.flatMap GroupLoad.keysToLoad
    let dstBlockIds := loads.flatMap GroupLoad.dstBlockIds
    let (srcSpec, manager) ← ops.prepareLoad c.manager keysToLoad
    let jobId := c.jobCounter
    -- a load can only be issued when no other jobs are pending
    pyAssert (st.transferJobs = []) ""
    return { c with
      manager := manager
      reqStatus := c.reqStatus.set requestId (st.afterLoad loads jobId)
      currentBatchLoadJobs := c.currentBatchLoadJobs.set jobId {
        reqId := requestId
        gpuSpec := {
          blockIds := dstBlockIds
          groupSizes := loads.map GroupLoad.numPendingGpuBlocks
          blockIndices := loads.map GroupLoad.numLocallyComputedGpuBlocks }
        offloadSpec := srcSpec }
      -- fence the blocks against pending stores of finished requests
      currentBatchJobsToFlush := c.currentBatchJobsToFlush ++ c.pendingJobs dstBlockIds
      blocksBeingLoaded := c.blocksBeingLoaded.map (fun keys => keys ++ keysToLoad)
      jobCounter := jobId + 1
      jobs := c.jobs.set jobId {
        reqId := requestId
        pendingCount := c.config.numWorkers
        keys := keysToLoad
        isStore := false
        nonSlidingWindowBlockIds := none
        slidingWindowBlockIds := none } }

end OffloadingConnectorScheduler

end TailBlend
