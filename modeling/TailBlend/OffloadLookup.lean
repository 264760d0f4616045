import TailBlend.KVCacheSpec
import Mathlib.Data.List.Sort

/-! The offloading connector: the configuration of its groups, the keys of a request's offloaded
blocks, and the lookup of how many tokens can be loaded. -/
namespace TailBlend

structure GroupOffloadConfig where
  groupIdx : Nat
  gpuBlockSize : Nat
  offloadedBlockSize : Nat
  hashBlockSizeFactor : Nat
  /-- `None` for full attention. -/
  slidingWindowSizeInBlocks : Option Nat
  deriving DecidableEq

/-- What the scheduler side reads of `OffloadingSpec`; its constructor checks the divisibility. -/
structure OffloadingSpec where
  kvCacheGroups : List KVCacheSpec
  contextParallelFactor : Nat
  hashBlockSize : Nat
  blockSizeFactor : Nat
  parallel_pos : 0 < contextParallelFactor
  factor_pos : 0 < blockSizeFactor
  hash_dvd : ∀ kv ∈ kvCacheGroups, hashBlockSize ∣ kv.blockSize * contextParallelFactor

def getSlidingWindowSizeInBlocks (kv : KVCacheSpec) (offloadedBlockSize : Nat) :
    Except PyError (Option Nat) :=
  match kv.kind with
  | .slidingWindow w => do
    pyAssert (w > 0) ""
    return some (cdiv w offloadedBlockSize).toNat
  | .mamba _ _ => .ok (some 1)
  | .fullAttention _ => .ok none
  | _ => .error (.assertionError "")

namespace OffloadingSpec

variable (o : OffloadingSpec)

def gpuBlockSize (kv : KVCacheSpec) : Nat :=
  kv.blockSize * o.contextParallelFactor

def offloadedBlockSize (kv : KVCacheSpec) : Nat :=
  o.gpuBlockSize kv * o.blockSizeFactor

def groupConfig (kv : KVCacheSpec) (idx : Nat) : Except PyError GroupOffloadConfig := do
  let window ← getSlidingWindowSizeInBlocks kv (o.offloadedBlockSize kv)
  return {
    groupIdx := idx
    gpuBlockSize := o.gpuBlockSize kv
    offloadedBlockSize := o.offloadedBlockSize kv
    hashBlockSizeFactor := o.offloadedBlockSize kv / o.hashBlockSize
    slidingWindowSizeInBlocks := window }

/-- The groups of `SchedulerOffloadConfig.from_spec`. -/
def kvGroupConfigs : Except PyError (List GroupOffloadConfig) :=
  o.kvCacheGroups.zipIdx.mapM (fun e => o.groupConfig e.1 e.2)

end OffloadingSpec

structure LookupOrder where
  fullAttentionGroups : List Nat
  slidingWindowGroups : List Nat

def LookupOrder.lookupGroups (r : LookupOrder) : List Nat :=
  r.fullAttentionGroups ++ r.slidingWindowGroups

/-- The constructor's two lists; windows in decreasing order. -/
def lookupOrder (configs : List GroupOffloadConfig) : LookupOrder where
  fullAttentionGroups :=
    (configs.filter (fun g => g.slidingWindowSizeInBlocks.isNone)).map GroupOffloadConfig.groupIdx
  slidingWindowGroups :=
    ((configs.filter (fun g => g.slidingWindowSizeInBlocks.isSome)).insertionSort
      (fun g h => h.slidingWindowSizeInBlocks.getD 0 ≤ g.slidingWindowSizeInBlocks.getD 0)).map
        GroupOffloadConfig.groupIdx

def offloadKeys {η : Type} (g : GroupOffloadConfig) (blockHashes : List η) : List (η × Nat) :=
  (List.range (blockHashes.length / g.hashBlockSizeFactor)).filterMap (fun j =>
    blockHashes[g.hashBlockSizeFactor * (j + 1) - 1]?.map (fun h => (h, g.groupIdx)))

variable {κ : Type}

def maximalPrefixLookup (lookup : κ → Option Bool) : List κ → Nat → Bool → Option Nat
  | [], hitCount, deferLookup => if deferLookup then none else some hitCount
  | key :: keys, hitCount, deferLookup =>
    match lookup key with
    | none => maximalPrefixLookup lookup keys (hitCount + 1) true
    | some true => maximalPrefixLookup lookup keys (hitCount + 1) deferLookup
    | some false => if deferLookup then none else some hitCount

def slidingWindowLookup (lookup : κ → Option Bool) (slidingWindowSize : Nat) :
    List κ → Bool → Nat → Option Nat
  | [], deferLookup, consecutiveHits => if deferLookup then none else some consecutiveHits
  | key :: keys, deferLookup, consecutiveHits =>
    match lookup key with
    | none => slidingWindowLookup lookup slidingWindowSize keys true 0
    | some false => slidingWindowLookup lookup slidingWindowSize keys deferLookup 0
    | some true =>
      if consecutiveHits + 1 = slidingWindowSize then
        if deferLookup then none else some (keys.length + slidingWindowSize)
      else slidingWindowLookup lookup slidingWindowSize keys deferLookup (consecutiveHits + 1)

/-- What `_lookup` reads: the groups with their keys, the request and the manager's answers. -/
structure LookupInput (κ : Type) where
  groups : List (GroupOffloadConfig × List κ)
  numTokens : Nat
  numComputedTokens : Nat
  lookup : κ → Option Bool
  /-- `None` without prefix caching on the GPU. -/
  blocksBeingLoaded : Option (List κ)

/-- The variables of the loops of `_lookup`; `lookupGroups` is the next pass. -/
structure LookupState where
  maxHitSizeTokens : Int
  numHitTokens : Int
  deferLookup : Bool
  lookedUpSlidingWindow : Bool
  lookupGroups : List Nat

namespace LookupInput

variable (q : LookupInput κ)

def order : LookupOrder := lookupOrder (q.groups.map Prod.fst)

def numHitBlocks (g : GroupOffloadConfig) (keys : List κ) (maxHit : Int) : Option Nat :=
  let numBlocks := min (cdiv maxHit g.offloadedBlockSize).toNat keys.length
  let keys := (keys.take numBlocks).drop (q.numComputedTokens / g.offloadedBlockSize)
  match g.slidingWindowSizeInBlocks with
  | none => maximalPrefixLookup q.lookup keys 0 false
  | some w => slidingWindowLookup q.lookup w keys.reverse false 0

/-- The end of a group's visit: whether another pass is needed. -/
def schedule (s : LookupState) (maxHit : Int) (deferLookup isWindow : Bool) : LookupState :=
  let newNumHitTokens := maxHit - q.numComputedTokens
  let fewer := decide (newNumHitTokens < s.numHitTokens)
  { maxHitSizeTokens := maxHit
    numHitTokens := newNumHitTokens
    deferLookup := deferLookup && !fewer
    lookedUpSlidingWindow := s.lookedUpSlidingWindow || isWindow
    lookupGroups :=
      if fewer then
        if deferLookup then q.order.lookupGroups
        else if s.lookedUpSlidingWindow ∧ s.lookupGroups = [] then q.order.slidingWindowGroups
        else s.lookupGroups
      else s.lookupGroups }

/-- The body of the `for` loop; `none` is `return 0`. -/
def visitGroup (s : LookupState) (groupIdx : Nat) : Except PyError (Option LookupState) :=
  match q.groups[groupIdx]? with
  | none => .error .indexError
  | some (g, keys) => do
    pyAssert (q.numTokens / g.offloadedBlockSize ≤ keys.length) ""
    let maxHit := min s.maxHitSizeTokens (keys.length * g.offloadedBlockSize : Nat)
    if maxHit - q.numComputedTokens < g.offloadedBlockSize then return none
    else
      let hits := q.numHitBlocks g keys maxHit
      if hits = some 0 then return none
      else
        let start := q.numComputedTokens / g.offloadedBlockSize
        let maxHit := hits.elim maxHit (fun n =>
          min maxHit (g.offloadedBlockSize * (start + n) : Nat))
        if maxHit - q.numComputedTokens < g.offloadedBlockSize then return none
        else return some (q.schedule s maxHit (s.deferLookup || hits.isNone)
          g.slidingWindowSizeInBlocks.isSome)

def visitGroups (q : LookupInput κ) : List Nat → LookupState →
    Except PyError (Option LookupState)
  | [], s => .ok (some s)
  | groupIdx :: rest, s => do
    match ← q.visitGroup s groupIdx with
    | none => return none
    | some s => q.visitGroups rest s

inductive LookupResult where
  | outOfFuel
  /-- `None`: ask again later. -/
  | deferred
  | hit (numHitTokens : Int)
  deriving DecidableEq

def isBeingLoaded [DecidableEq κ] (q : LookupInput κ) (numHitTokens : Int) : Bool :=
  (q.blocksBeingLoaded.getD []) ≠ [] && q.groups.any (fun (g, keys) =>
    let numBlocks := (cdiv (q.numComputedTokens + numHitTokens) g.offloadedBlockSize).toNat
    let keys := (keys.take numBlocks).drop (q.numComputedTokens / g.offloadedBlockSize)
    let keys := g.slidingWindowSizeInBlocks.elim keys (fun w => keys.drop (keys.length - w))
    keys.any (fun key => key ∈ q.blocksBeingLoaded.getD []))

def passes (q : LookupInput κ) : Nat → List Nat → LookupState →
    Except PyError (Option (Option LookupState))
  | _, [], s => .ok (some (some s))
  | 0, _ :: _, _ => .ok none
  | fuel + 1, groups, s => do
    match ← q.visitGroups groups { s with lookedUpSlidingWindow := false, lookupGroups := [] } with
    | none => return some none
    | some s => q.passes fuel s.lookupGroups s

def initial : LookupState where
  maxHitSizeTokens :=
    if q.order.slidingWindowGroups = [] then q.numTokens else (q.numTokens : Int) - 1
  numHitTokens := 0
  deferLookup := false
  lookedUpSlidingWindow := false
  lookupGroups := []

/-- `_lookup`. -/
def run [DecidableEq κ] (q : LookupInput κ) (fuel : Nat) : Except PyError LookupResult := do
  match ← q.passes fuel q.order.lookupGroups q.initial with
  | none => return .outOfFuel
  | some none => return .hit 0
  | some (some s) =>
    if s.deferLookup then return .deferred
    else if q.isBeingLoaded s.numHitTokens then return .deferred
    else return .hit s.numHitTokens

end LookupInput

end TailBlend
