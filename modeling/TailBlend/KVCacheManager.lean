import TailBlend.CacheHit
import TailBlend.Lib.Thread

/-! The cache manager: the coordinator's loops over the managers of all groups, and
`allocate_slots`. -/
namespace TailBlend
variable {α : Type} [DecidableEq α]

/-- `enable_caching` and the hash block size are those of the pool. -/
structure KVCacheManager (α : Type) where
  maxModelLen : Int
  eagleGroupIds : List Nat
  pool : BlockPool
  managers : List (Manager α)

namespace KVCacheManager

structure GroupSpec where
  spec : KVCacheSpec
  isEagleGroup : Bool

/-- Groups that get the EAGLE drop; all of them when EAGLE is used and none is flagged. -/
def eagleGroups (groups : List GroupSpec) (useEagle : Bool) : List Nat :=
  let flagged := (groups.zipIdx.filter (fun g => g.1.isEagleGroup)).map Prod.snd
  if useEagle ∧ flagged = [] then List.range groups.length else flagged

def init (groups : List GroupSpec) (numBlocks hashBlockSize : Nat)
    (enableCaching useEagle enableKvCacheEvents : Bool) (maxModelLen maxNumBatchedTokens : Int) :
    KVCacheManager α where
  maxModelLen := maxModelLen
  eagleGroupIds := eagleGroups groups useEagle
  pool := .init numBlocks enableCaching hashBlockSize enableKvCacheEvents
  managers := groups.zipIdx.map (fun g => .init g.1.spec g.2
    (g.1.spec.maxAdmissionBlocksPerRequest maxNumBatchedTokens maxModelLen))

section
variable (kv : KVCacheManager α)

def specs : List KVCacheSpec := kv.managers.map (fun m => m.spec)

def findLongestCacheHit (blockHashes : List BlockHash)
    (maxCacheHitLength : Nat) : Except PyError (List (List Nat) × Nat) :=
  if !kv.pool.enableCaching then .ok (kv.managers.map (fun _ => []), 0)
  else match kv.specs with
    | [spec] => CacheHit.unitary kv.pool spec kv.eagleGroupIds blockHashes maxCacheHitLength
    | specs => do
      let res ← CacheHit.hybrid kv.pool specs kv.eagleGroupIds blockHashes maxCacheHitLength
      return res.getD (specs.map (fun _ => []), 0)

def emptyBlocks : List (List Nat) := kv.managers.map (fun _ => [])

def getComputedBlocks (req : KVRequest α) : Except PyError (List (List Nat) × Nat) :=
  if kv.pool.enableCaching = false ∨ req.skipReadingPrefixCache then .ok (kv.emptyBlocks, 0)
  else kv.findLongestCacheHit req.blockHashes (req.numTokens - 1).toNat

def getNumBlocksToAllocate (kv : KVCacheManager α) (r : α) (numTokens : Int)
    (newComputedBlocks : List (List Nat)) (numEncoderTokens totalComputedTokens
    numTokensMainModel : Int) (applyAdmissionCap : Bool) : Except PyError Int := do
  let counts ← (kv.managers.zipIdx).mapM (fun (m, i) =>
    if m.spec.kind = .crossAttention then
      m.getNumBlocksToAllocate kv.pool r numEncoderTokens [] 0 numEncoderTokens applyAdmissionCap
    else
      m.getNumBlocksToAllocate kv.pool r numTokens (newComputedBlocks.getD i [])
        totalComputedTokens numTokensMainModel applyAdmissionCap)
  return counts.sum

def run {ρ : Type} (kv : KVCacheManager α)
    (f : Nat → BlockPool → Manager α → Except PyError (BlockPool × Manager α × ρ)) :
    Except PyError (KVCacheManager α × List ρ) := do
  let (p, ms, xs) ← threadM f 0 kv.pool kv.managers
  return ({ kv with pool := p, managers := ms }, xs)

def allocateNewComputedBlocks (kv : KVCacheManager α) (r : α) (newComputedBlocks : List (List Nat))
    (numLocalComputedTokens numExternalComputedTokens : Int) :
    Except PyError (KVCacheManager α) := do
  let (kv, _) ← kv.run (fun i p m => do
    let (p, m) ← m.allocateNewComputedBlocks p r (newComputedBlocks.getD i [])
      numLocalComputedTokens numExternalComputedTokens
    return (p, m, ()))
  return kv

def allocateNewBlocks (kv : KVCacheManager α) (r : α) (numTokens numTokensMainModel
    numEncoderTokens : Int) : Except PyError (KVCacheManager α × List (List Nat)) :=
  kv.run (fun _ p m => m.allocateNewBlocks p r
    (if m.spec.kind = .crossAttention then numEncoderTokens else numTokens) numTokensMainModel)

def removeSkippedBlocks (kv : KVCacheManager α) (r : α) (totalComputedTokens : Int) :
    Except PyError (KVCacheManager α) := do
  let (kv, _) ← kv.run (fun _ p m => do
    let (p, m) ← m.removeSkippedBlocks p r totalComputedTokens
    return (p, m, ()))
  return kv

def coordinatorCacheBlocks (req : KVRequest α) (numComputedTokens : Int) :
    Except PyError (KVCacheManager α) := do
  let (kv, _) ← kv.run (fun _ p m => do
    let (p, m) ← m.cacheBlocks p req numComputedTokens
    return (p, m, ()))
  return kv

def cacheBlocks (req : KVRequest α) (numComputedTokens : Int) : Except PyError (KVCacheManager α) :=
  if kv.pool.enableCaching then kv.coordinatorCacheBlocks req numComputedTokens else .ok kv

def freeAll (r : α) : BlockPool → List (Manager α) → BlockPool × List (Manager α)
  | p, [] => (p, [])
  | p, m :: ms =>
    let (p, m) := m.free p r
    let (p, ms) := freeAll r p ms
    (p, m :: ms)

def free (r : α) : KVCacheManager α :=
  let res := freeAll r kv.pool kv.managers
  { kv with pool := res.1, managers := res.2 }

def evictBlocks (kv : KVCacheManager α) (blockIds : List Nat) :
    Except PyError (KVCacheManager α) := do
  let p ← kv.pool.evictBlocks blockIds
  return { kv with pool := p }

def resetPrefixCache (kv : KVCacheManager α) : KVCacheManager α × Bool :=
  let (p, ok) := kv.pool.resetPrefixCache
  ({ kv with pool := p }, ok)

def newStepStarts (kv : KVCacheManager α) : KVCacheManager α :=
  { kv with managers := kv.managers.map Manager.newStepStarts }

def getBlocks (r : α) : List (List Nat) :=
  kv.managers.map (fun m => m.blocks r)

def takeNewBlockIds : KVCacheManager α × List Nat :=
  ({ kv with managers := kv.managers.map (fun m => { m with newBlockIds := [] }) },
    kv.managers.flatMap (fun m => m.newBlockIds))

end

def getNumCommonPrefixBlocks (kv : KVCacheManager α) (r : α) : List Nat :=
  if kv.pool.enableCaching then kv.managers.map (fun m => m.getNumCommonPrefixBlocks kv.pool r)
  else kv.managers.map (fun _ => 0)

structure SlotArgs where
  numNewTokens : Int
  numNewComputedTokens : Int
  newComputedBlocks : Option (List (List Nat))
  numLookaheadTokens : Int
  numExternalComputedTokens : Int
  delayCacheBlocks : Bool
  numEncoderTokens : Int
  fullSequenceMustFit : Bool

/-- A running request, `allocate_slots(request, n, num_lookahead_tokens=k)`. -/
def SlotArgs.running (numNewTokens numLookaheadTokens : Int) : SlotArgs where
  numNewTokens := numNewTokens
  numNewComputedTokens := 0
  newComputedBlocks := none
  numLookaheadTokens := numLookaheadTokens
  numExternalComputedTokens := 0
  delayCacheBlocks := false
  numEncoderTokens := 0
  fullSequenceMustFit := false

section allocateSlots
variable (kv : KVCacheManager α) (req : KVRequest α) (a : SlotArgs)

def newComputedBlockList : List (List Nat) := a.newComputedBlocks.getD kv.emptyBlocks

def numLocalComputedTokens : Int := req.numComputedTokens + a.numNewComputedTokens

def totalComputedTokens : Int :=
  min (numLocalComputedTokens req a + a.numExternalComputedTokens) kv.maxModelLen

def numTokensMainModel : Int := kv.totalComputedTokens req a + a.numNewTokens

def numTokensNeedSlot : Int :=
  min (kv.numTokensMainModel req a + a.numLookaheadTokens) kv.maxModelLen

def fullSequenceFits : Except PyError Bool :=
  if a.fullSequenceMustFit then do
    let fullNumTokens := min req.numTokens kv.maxModelLen
    let n ← kv.getNumBlocksToAllocate req.requestId fullNumTokens (kv.newComputedBlockList a)
      a.numEncoderTokens (kv.totalComputedTokens req a) fullNumTokens true
    return n ≤ kv.pool.numFreeBlocks
  else .ok true

def predictedBlocks : Except PyError Int :=
  kv.getNumBlocksToAllocate req.requestId (kv.numTokensNeedSlot req a) (kv.newComputedBlockList a)
    a.numEncoderTokens (numLocalComputedTokens req a + a.numExternalComputedTokens)
    (kv.numTokensMainModel req a) false

/-- Append the hits; `empty_kv_cache_blocks` stands for no hits at all. -/
def commitComputed : Except PyError (KVCacheManager α) :=
  let blocks := kv.newComputedBlockList a
  if blocks.any (fun l => l ≠ []) ∨ a.numExternalComputedTokens > 0 then
    kv.allocateNewComputedBlocks req.requestId blocks (numLocalComputedTokens req a)
      a.numExternalComputedTokens
  else .ok kv

/-- Cache the finalized tokens only: draft tokens could still be rejected. -/
def commitCache : Except PyError (KVCacheManager α) :=
  if kv.pool.enableCaching = false ∨ a.delayCacheBlocks then .ok kv
  else kv.coordinatorCacheBlocks req
    (min (kv.totalComputedTokens req a + a.numNewTokens) req.numTokens)

def commitSlots : Except PyError (KVCacheManager α × List (List Nat)) := do
  let kv ← kv.commitComputed req a
  let (kv, newBlocks) ← kv.allocateNewBlocks req.requestId (kv.numTokensNeedSlot req a)
    (kv.numTokensMainModel req a) a.numEncoderTokens
  let kv ← kv.commitCache req a
  return (kv, newBlocks)

def allocateSlots : Except PyError (KVCacheManager α × Option (List (List Nat))) :=
  if a.numNewTokens = 0 ∧ a.numExternalComputedTokens = 0 then
    .error (.valueError
      "num_new_tokens must be greater than 0 when there are no external computed tokens")
  else do
    if ← kv.fullSequenceFits req a then
      let kv ← kv.removeSkippedBlocks req.requestId (kv.totalComputedTokens req a)
      let n ← kv.predictedBlocks req a
      if n > kv.pool.numFreeBlocks then return (kv, none)
      else do
        let (kv, newBlocks) ← kv.commitSlots req a
        return (kv, some newBlocks)
    else return (kv, none)

end allocateSlots
end KVCacheManager
end TailBlend
