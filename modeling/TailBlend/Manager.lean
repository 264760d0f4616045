import TailBlend.BlockPool
import TailBlend.KVCacheSpec
import TailBlend.Lib.Dict

/-! The manager of one cache group, for every kind of attention. Each method takes the
shared block pool and returns it with the new state of the manager. -/
namespace TailBlend
variable {α : Type} [DecidableEq α]

structure KVRequest (α : Type) where
  requestId : α
  numTokens : Int
  numComputedTokens : Int
  allTokenIds : List Int
  blockHashes : List BlockHash
  skipReadingPrefixCache : Bool
  chained : BlockHash.Chained .noneHash blockHashes

structure Manager (α : Type) where
  spec : KVCacheSpec
  groupId : Nat
  maxAdmissionBlocksPerRequest : Option Int
  newBlockIds : List Nat
  reqToBlocks : Dict α (List Nat)
  numCachedBlock : Dict α Nat
  -- the remaining fields are those of `MambaManager`
  cachedBlocksThisStep : List BlockKey
  lastStateBlockIdx : Dict α Int
  allocatedBlockReqs : List α

namespace Manager

def init (spec : KVCacheSpec) (groupId : Nat) (maxAdmission : Option Int) : Manager α where
  spec := spec
  groupId := groupId
  maxAdmissionBlocksPerRequest := maxAdmission
  newBlockIds := []
  reqToBlocks := .empty
  numCachedBlock := .empty
  cachedBlocksThisStep := []
  lastStateBlockIdx := .empty
  allocatedBlockReqs := []

variable (m : Manager α)

def blocks (r : α) : List Nat := m.reqToBlocks.getD r []

def blockSize (m : Manager α) : Nat := m.spec.blockSize

def setBlocks (r : α) (bs : List Nat) : Manager α :=
  { m with reqToBlocks := m.reqToBlocks.set r bs }

variable (p : BlockPool)

def baseNumBlocksToAllocate (m : Manager α) (r : α) (numTokens : Int)
    (newComputedBlocks : List Nat) (totalComputedTokens : Int) (applyAdmissionCap : Bool) :
    Except PyError Int :=
  let numRequiredBlocks :=
    match applyAdmissionCap, m.maxAdmissionBlocksPerRequest with
    | true, some cap => min (cdiv numTokens m.blockSize) cap
    | _, _ => cdiv numTokens m.blockSize
  let numReqBlocks : Int := (m.blocks r).length
  if m.numCachedBlock.contains r then
    if newComputedBlocks.length = 0 then .ok (max (numRequiredBlocks - numReqBlocks) 0)
    else .error (.assertionError "")
  else
    let numSkippedTokens := m.spec.getNumSkippedTokens totalComputedTokens
    let numLocalComputedBlocks := newComputedBlocks.length + numReqBlocks
    let numSkippedBlocks := numSkippedTokens / m.blockSize
    let numNewBlocks := max (numRequiredBlocks - max numSkippedBlocks numLocalComputedBlocks) 0
    let numSkippedNewComputedBlocks := max 0 (numSkippedBlocks - numReqBlocks)
    .ok (numNewBlocks +
      p.getNumEvictableBlocks (newComputedBlocks.drop numSkippedNewComputedBlocks.toNat))

/-- The align branch of `MambaManager.get_num_blocks_to_allocate`. -/
def alignNumBlocksToAllocate (m : Manager α) (numSpeculativeBlocks : Nat) (r : α)
    (newComputedBlocks : List Nat) (numTokensMainModel : Int) : Int :=
  let numRequiredBlocks := cdiv numTokensMainModel m.blockSize + numSpeculativeBlocks
  let numNewBlocks := numRequiredBlocks - newComputedBlocks.length - (m.blocks r).length
  let numNewBlocks :=
    if numNewBlocks > 0 then
      if r ∈ m.allocatedBlockReqs then 1 else 1 + (numSpeculativeBlocks : Int)
    else numNewBlocks
  numNewBlocks + p.getNumEvictableBlocks newComputedBlocks

/-- The last hit was cached in the current step, which Mamba cannot rely on. -/
def hitsThisStep (m : Manager α) (newComputedBlocks : List Nat) : Bool :=
  match newComputedBlocks.getLast? with
  | none => false
  | some b =>
    match p.blockHash b with
    | none => false
    | some key => key ∈ m.cachedBlocksThisStep

def getNumBlocksToAllocate (m : Manager α) (r : α) (numTokens : Int)
    (newComputedBlocks : List Nat) (totalComputedTokens numTokensMainModel : Int)
    (applyAdmissionCap : Bool) : Except PyError Int :=
  match m.spec.kind with
  | .mamba mode numSpeculativeBlocks =>
    if m.hitsThisStep p newComputedBlocks then .ok (p.numGpuBlocks + 1)
    else if mode ≠ .align then
      m.baseNumBlocksToAllocate p r (numTokens + m.blockSize * numSpeculativeBlocks)
        newComputedBlocks totalComputedTokens applyAdmissionCap
    else .ok (m.alignNumBlocksToAllocate p numSpeculativeBlocks r newComputedBlocks
      numTokensMainModel)
  | _ =>
    m.baseNumBlocksToAllocate p r numTokens newComputedBlocks totalComputedTokens
      applyAdmissionCap

def noteNewBlocks (ids : List Nat) : Manager α :=
  match m.spec.kind with
  | .fullAttention .full | .fullAttention .tq => { m with newBlockIds := m.newBlockIds ++ ids }
  | _ => m

def touchComputed (newComputedBlocks : List Nat) : Except PyError BlockPool :=
  if p.enableCaching then p.touch newComputedBlocks
  else if newComputedBlocks.isEmpty then .ok p
  else .error (.assertionError "Computed blocks should be empty when prefix caching is disabled")

def numSkippedBlocks (numComputedTokens : Int) : Nat :=
  (m.spec.getNumSkippedTokens numComputedTokens / m.blockSize).toNat

def computedList (newComputedBlocks : List Nat) (numTotalComputedTokens : Int) : List Nat :=
  let k := m.numSkippedBlocks numTotalComputedTokens
  List.replicate k 0 ++ newComputedBlocks.drop k

def windowExternalTokens (numLocalComputedTokens numExternalComputedTokens : Int) : Int :=
  let numTotalComputedTokens := numLocalComputedTokens + numExternalComputedTokens
  if m.numSkippedBlocks numTotalComputedTokens > 0 then
    min (numTotalComputedTokens - m.spec.getNumSkippedTokens numTotalComputedTokens)
      numExternalComputedTokens
  else numExternalComputedTokens

def withComputed (r : α) (reqBlocks : List Nat) : Manager α :=
  { m.setBlocks r reqBlocks with numCachedBlock := m.numCachedBlock.set r reqBlocks.length }

def addComputedBlocks (m : Manager α) (r : α) (newComputedBlocks : List Nat)
    (numLocalComputedTokens numExternalComputedTokens : Int) :
    Except PyError (BlockPool × Manager α) := do
  pyAssert ((m.blocks r).length = 0) ""
  let numTotalComputedTokens := numLocalComputedTokens + numExternalComputedTokens
  let p ← touchComputed p
    (newComputedBlocks.drop (m.numSkippedBlocks numTotalComputedTokens))
  let reqBlocks := m.computedList newComputedBlocks numTotalComputedTokens
  if m.windowExternalTokens numLocalComputedTokens numExternalComputedTokens > 0 then do
    let (p, allocated) ← p.getNewBlocks
      (cdiv numTotalComputedTokens m.blockSize - reqBlocks.length)
    return (p, ((m.withComputed r reqBlocks).setBlocks r (reqBlocks ++ allocated)).noteNewBlocks
      allocated)
  else return (p, m.withComputed r reqBlocks)

def allocateNewComputedBlocks (m : Manager α) (r : α)
    (newComputedBlocks : List Nat) (numLocalComputedTokens numExternalComputedTokens : Int) :
    Except PyError (BlockPool × Manager α) :=
  match m.spec.kind with
  | .crossAttention =>
    if newComputedBlocks.length = 0 then .ok (p, m) else .error (.assertionError "")
  | _ =>
    if m.numCachedBlock.contains r then
      if newComputedBlocks.length = 0 then .ok (p, m) else .error (.assertionError "")
    else
      m.addComputedBlocks p r newComputedBlocks numLocalComputedTokens numExternalComputedTokens

def baseAllocateNewBlocks (m : Manager α) (r : α) (numTokens : Int) :
    Except PyError (BlockPool × Manager α × List Nat) :=
  let reqBlocks := m.blocks r
  let numNewBlocks := cdiv numTokens m.blockSize - reqBlocks.length
  if numNewBlocks ≤ 0 then .ok (p, m.setBlocks r reqBlocks, [])
  else do
    let (p, newBlocks) ← p.getNewBlocks numNewBlocks
    return (p, (m.setBlocks r (reqBlocks ++ newBlocks)).noteNewBlocks newBlocks, newBlocks)

/-- Move the speculative blocks from `blockIdx` on behind the list while they lie below
`numSkippedBlocks`, leaving null blocks in their places. -/
def reuseSpeculative (numSkippedBlocks : Int) : Nat → Int → List Nat → Except PyError (List Nat)
  | 0, _, bs => .ok bs
  | n + 1, blockIdx, bs =>
    if blockIdx < numSkippedBlocks then
      match pyIndex bs.length blockIdx, pyIndex (bs.length + 1) blockIdx with
      | some i, some j =>
        reuseSpeculative numSkippedBlocks n (blockIdx + 1) ((bs ++ [bs.getD i 0]).set j 0)
      | _, _ => .error .indexError
    else .ok bs

def recordLastState (numSpeculativeBlocks : Nat) (r : α) : Dict α Int :=
  let prevBlockLen : Int := (m.blocks r).length
  if r ∈ m.allocatedBlockReqs then
    m.lastStateBlockIdx.set r (prevBlockLen - 1 - numSpeculativeBlocks)
  else if prevBlockLen > 0 then m.lastStateBlockIdx.set r (prevBlockLen - 1)
  else m.lastStateBlockIdx

/-- The list padded with null blocks, with the speculative blocks of the previous step
reused behind them. -/
def alignMoved (numSpeculativeBlocks : Nat) (r : α) (numRequiredBlocks : Int) :
    Except PyError (List Nat) :=
  let reqBlocks := m.blocks r
  let prevBlockLen : Int := reqBlocks.length
  let numSkippedBlocks := numRequiredBlocks - numSpeculativeBlocks - 1
  let padded := reqBlocks ++ List.replicate (numSkippedBlocks - prevBlockLen).toNat 0
  if r ∈ m.allocatedBlockReqs then
    reuseSpeculative numSkippedBlocks numSpeculativeBlocks (prevBlockLen - numSpeculativeBlocks)
      padded
  else .ok padded

/-- The align branch of `MambaManager.allocate_new_blocks`. -/
def alignAllocateNewBlocks (m : Manager α) (numSpeculativeBlocks : Nat) (r : α)
    (numTokensMainModel : Int) : Except PyError (BlockPool × Manager α × List Nat) :=
  let reqBlocks := m.blocks r
  let numRequiredBlocks := cdiv numTokensMainModel m.blockSize + numSpeculativeBlocks
  let prevBlockLen : Int := reqBlocks.length
  if numRequiredBlocks = prevBlockLen then .ok (p, m.setBlocks r reqBlocks, [])
  else if numRequiredBlocks < prevBlockLen then
    .error (.assertionError
      s!"num_required_blocks {numRequiredBlocks} < len(req_blocks) {prevBlockLen}")
  else do
    let moved ← m.alignMoved numSpeculativeBlocks r numRequiredBlocks
    let numNewBlocks := numRequiredBlocks - moved.length
    pyAssert (numNewBlocks ≤
      if r ∈ m.allocatedBlockReqs then 1 else (numSpeculativeBlocks : Int) + 1) ""
    let (p, newBlocks) ← p.getNewBlocks numNewBlocks
    return (p, { m.setBlocks r (moved ++ newBlocks) with
      lastStateBlockIdx := m.recordLastState numSpeculativeBlocks r
      allocatedBlockReqs := if r ∈ m.allocatedBlockReqs then m.allocatedBlockReqs
        else r :: m.allocatedBlockReqs }, (moved ++ newBlocks).drop reqBlocks.length)

def allocateNewBlocks (m : Manager α) (r : α)
    (numTokens numTokensMainModel : Int) : Except PyError (BlockPool × Manager α × List Nat) :=
  match m.spec.kind with
  | .mamba mode numSpeculativeBlocks =>
    if mode ≠ .align then
      m.baseAllocateNewBlocks p r (numTokens + m.blockSize * numSpeculativeBlocks)
    else m.alignAllocateNewBlocks p numSpeculativeBlocks r numTokensMainModel
  | _ => m.baseAllocateNewBlocks p r numTokens

/-- Replace the blocks below index `n` by null blocks, from the right up to the first one
that is null already; returns the list and the removed blocks. -/
def nullSkipped : Nat → List Nat → List Nat × List Nat
  | 0, bs => (bs, [])
  | i + 1, bs =>
    if bs.getD i 0 = 0 then (bs, [])
    else
      let rest := nullSkipped i (bs.set i 0)
      (rest.1, bs.getD i 0 :: rest.2)

def baseRemoveSkippedBlocks (m : Manager α) (r : α) (totalComputedTokens : Int) :
    BlockPool × Manager α :=
  let numSkippedTokens := m.spec.getNumSkippedTokens totalComputedTokens
  if numSkippedTokens ≤ 0 then (p, m)
  else
    let res := nullSkipped (min (m.numSkippedBlocks totalComputedTokens) (m.blocks r).length)
      (m.blocks r)
    (p.freeBlocks res.2, m.setBlocks r res.1)

/-- The block of the state two steps ago, which align mode frees on its own. -/
def freeLastState (m : Manager α) (r : α) (numComputedTokens : Int) :
    Except PyError (BlockPool × Manager α) :=
  match m.lastStateBlockIdx.get? r with
  | none => .ok (p, m)
  | some idx =>
    if idx < cdiv numComputedTokens m.blockSize - 1 then
      match pyIndex (m.blocks r).length idx with
      | none => .error .indexError
      | some i =>
        let b := (m.blocks r).getD i 0
        if b ≠ 0 then .ok (p.freeBlocks [b], m.setBlocks r ((m.blocks r).set i 0))
        else .ok (p, m)
    else .ok (p, m)

def removeSkippedBlocks (m : Manager α) (r : α) (totalComputedTokens : Int) :
    Except PyError (BlockPool × Manager α) :=
  match m.spec.kind with
  | .mamba mode numSpeculativeBlocks =>
    -- all draft tokens of the previous step may still be rejected
    let numComputedTokens := max 0 (totalComputedTokens - numSpeculativeBlocks)
    let (p, m) := m.baseRemoveSkippedBlocks p r numComputedTokens
    if mode = .align then m.freeLastState p r numComputedTokens else .ok (p, m)
  | _ => .ok (m.baseRemoveSkippedBlocks p r totalComputedTokens)

def baseCacheBlocks (m : Manager α) (req : KVRequest α) (numTokens : Int) :
    Except PyError (BlockPool × Manager α) :=
  let r := req.requestId
  let numCachedBlocks := m.numCachedBlock.getD r 0
  let numFullBlocks := (numTokens / m.blockSize).toNat
  if numCachedBlocks ≥ numFullBlocks then .ok (p, m)
  else do
    let p ← p.cacheFullBlocks req.blockHashes req.allTokenIds (m.blocks r) numCachedBlocks
      numFullBlocks m.blockSize m.groupId
    return (p, { m.setBlocks r (m.blocks r) with
      numCachedBlock := m.numCachedBlock.set r numFullBlocks })

def cacheBlocks (m : Manager α) (req : KVRequest α) (numTokens : Int) :
    Except PyError (BlockPool × Manager α) :=
  match m.spec.kind with
  | .crossAttention => .error (.valueError "Should not be called as prefix caching is disabled.")
  | .mamba _ _ => do
    let before := m.numCachedBlock.getD req.requestId 0
    let (p, m) ← m.baseCacheBlocks p req numTokens
    let after := m.numCachedBlock.getD req.requestId 0
    let newlyCached := (((m.blocks req.requestId).take after).drop before).filter (fun b => b ≠ 0)
    pyAssert (∀ b ∈ newlyCached, (p.blockHash b).isSome) ""
    return (p, { m with
      cachedBlocksThisStep := m.cachedBlocksThisStep ++ newlyCached.filterMap p.blockHash })
  | _ => m.baseCacheBlocks p req numTokens

def free (m : Manager α) (r : α) : BlockPool × Manager α :=
  let m' := match m.spec.kind with
    | .mamba .align _ =>
      { m with
        allocatedBlockReqs := m.allocatedBlockReqs.filter (fun a => a ≠ r)
        lastStateBlockIdx := m.lastStateBlockIdx.erase r }
    | _ => m
  (p.freeBlocks (m.blocks r).reverse, { m' with
    reqToBlocks := m.reqToBlocks.erase r
    numCachedBlock := m.numCachedBlock.erase r })

def newStepStarts : Manager α := { m with cachedBlocksThisStep := [] }

def getNumCommonPrefixBlocks (m : Manager α) (r : α) : Nat :=
  match m.spec.kind with
  | .fullAttention _ =>
    ((m.blocks r).takeWhile
      (fun b => p.refCnt b = (m.reqToBlocks.toAList.entries.length : Int))).length
  | _ => 0

end Manager
end TailBlend
