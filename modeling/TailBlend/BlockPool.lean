import TailBlend.BlockHash
import Mathlib.Data.List.Perm.Basic

/-! The block pool: reference counts, the free queue and the prefix-cache map.
Block 0 is the null block; the doubly linked free list is the list of its blocks. -/
namespace TailBlend

/-- What is published about the cache; the medium, the LoRA adapter and the extra keys of stored
blocks are left out. -/
inductive KVCacheEvent where
  | blockStored (blockHashes : List (List BlockHash)) (parentBlockHash : Option (List BlockHash))
      (tokenIds : List Int) (blockSize groupIdx : Nat)
  | blockRemoved (blockHashes : List (List BlockHash)) (groupIdx : Nat)
  | allBlocksCleared
  deriving DecidableEq

structure BlockPool where
  numGpuBlocks : Nat
  enableCaching : Bool
  hashBlockSize : Nat
  enableKvCacheEvents : Bool
  refCnt : Nat → Int
  blockHash : Nat → Option BlockKey
  freeBlockQueue : List Nat
  numFreeBlocks : Int
  /-- The blocks of a key in insertion order. -/
  cachedBlockHashToBlock : BlockKey → List Nat
  kvEventQueue : List KVCacheEvent
  /-- Ghost: the token positions computed in a block since it was last handed out. -/
  written : List (Nat × Int)

namespace BlockPool

def init (numGpuBlocks : Nat) (enableCaching : Bool) (hashBlockSize : Nat)
    (enableKvCacheEvents : Bool) : BlockPool where
  numGpuBlocks := numGpuBlocks
  enableCaching := enableCaching
  hashBlockSize := hashBlockSize
  enableKvCacheEvents := enableKvCacheEvents
  refCnt := fun _ => 0
  blockHash := fun _ => none
  -- `null_block = free_block_queue.popleft()`
  freeBlockQueue := (List.range numGpuBlocks).drop 1
  numFreeBlocks := numGpuBlocks - 1
  cachedBlockHashToBlock := fun _ => []
  kvEventQueue := []
  written := []

variable (p : BlockPool)

def published (event : KVCacheEvent) : List KVCacheEvent :=
  if p.enableKvCacheEvents then p.kvEventQueue ++ [event] else p.kvEventQueue

def getOneBlock (key : BlockKey) : Option Nat :=
  (p.cachedBlockHashToBlock key).head?

def getCachedBlock (blockHash : List BlockHash) (groupIds : List Nat) : Option (List Nat) :=
  groupIds.mapM (fun groupId => p.getOneBlock (blockHash, groupId))

/-- `BlockHashToBlockMap.insert` and the hash of the block. -/
def register (key : BlockKey) (b : Nat) : BlockPool :=
  let blocks := p.cachedBlockHashToBlock key
  { p with
    blockHash := Function.update p.blockHash b (some key)
    cachedBlockHashToBlock := Function.update p.cachedBlockHashToBlock key
      (if b ∈ blocks then blocks else blocks ++ [b]) }

def maybeEvictCachedBlock (b : Nat) : BlockPool :=
  match p.blockHash b with
  | none => p
  | some key =>
    if b ∈ p.cachedBlockHashToBlock key then
      { p with
        cachedBlockHashToBlock := Function.update p.cachedBlockHashToBlock key
          ((p.cachedBlockHashToBlock key).erase b)
        blockHash := Function.update p.blockHash b none
        kvEventQueue := p.published (.blockRemoved [key.1] key.2) }
    else p

def cacheFullBlocksFrom (groupId : Nat) :
    BlockPool → List Nat → List (List BlockHash) → Except PyError BlockPool
  | p, [], _ => .ok p
  | p, b :: bs, hashes =>
    -- null blocks of sparse attention are skipped
    if b = 0 then cacheFullBlocksFrom groupId p bs hashes.tail
    else if (p.blockHash b).isSome then .error (.assertionError "")
    else match hashes.head? with
      | none => .error .indexError
      | some h => cacheFullBlocksFrom groupId (p.register (h, groupId) b) bs hashes.tail

/-- The event for the blocks from `numCachedBlocks` to `numFullBlocks`; null blocks have no entry in
its hashes. -/
def storedEvent (hashes : List (List BlockHash)) (allTokenIds : List Int) (blocks : List Nat)
    (numCachedBlocks numFullBlocks blockSize groupId : Nat) : Except PyError KVCacheEvent :=
  let newBlocks := (blocks.take numFullBlocks).drop numCachedBlocks
  let newHashes := ((newBlocks.zip (hashes.drop numCachedBlocks)).filter (fun e => e.1 ≠ 0)).map
    Prod.snd
  let tokenIds := (allTokenIds.take (numFullBlocks * blockSize)).drop (numCachedBlocks * blockSize)
  -- `block_hashes[num_cached_blocks - 1]`, and `blocks[i]` for the extra keys
  if hashes.length < numCachedBlocks ∨ blocks.length < numFullBlocks then .error .indexError
  else
    let parentBlockHash := if numCachedBlocks = 0 then none else hashes[numCachedBlocks - 1]?
    .ok (.blockStored newHashes parentBlockHash tokenIds blockSize groupId)

def cacheFullBlocks (blockHashes : List BlockHash) (allTokenIds : List Int)
    (blocks : List Nat) (numCachedBlocks numFullBlocks blockSize groupId : Nat) :
    Except PyError BlockPool :=
  if numCachedBlocks ≥ numFullBlocks then .ok p
  else if blockHashes.length < numFullBlocks then .error (.assertionError "")
  else if blockSize % p.hashBlockSize ≠ 0 then .error (.assertionError "")
  else do
    let hashes := hashesAt blockHashes p.hashBlockSize blockSize
    let q ← cacheFullBlocksFrom groupId p ((blocks.take numFullBlocks).drop numCachedBlocks)
      (hashes.drop numCachedBlocks)
    if p.enableKvCacheEvents then
      let event ← storedEvent hashes allTokenIds blocks numCachedBlocks numFullBlocks blockSize
        groupId
      return { q with kvEventQueue := q.kvEventQueue ++ [event] }
    else return q

/-- `FreeKVCacheBlockQueue.popleft_n`. A negative `n` only moves the counter. -/
def popleftN (n : Int) : Except PyError (BlockPool × List Nat) :=
  if n = 0 then .ok (p, [])
  else if p.numFreeBlocks < n then .error (.assertionError "")
  -- past its last block the source walks onto the fake tail and asserts
  else if p.freeBlockQueue.length < n.toNat then .error (.assertionError "")
  else
    .ok ({ p with
      numFreeBlocks := p.numFreeBlocks - n
      freeBlockQueue := p.freeBlockQueue.drop n.toNat }, p.freeBlockQueue.take n.toNat)

def handOut (b : Nat) : Except PyError BlockPool :=
  let p := if p.enableCaching then p.maybeEvictCachedBlock b else p
  if p.refCnt b = 0 then
    .ok { p with
      refCnt := Function.update p.refCnt b (p.refCnt b + 1)
      written := p.written.filter (fun w => w.1 ≠ b) }
  else .error (.assertionError "")

def getNewBlocks (numBlocks : Int) : Except PyError (BlockPool × List Nat) :=
  if numBlocks > p.numFreeBlocks then
    .error (.valueError s!"Cannot get {numBlocks} free blocks from the pool")
  else do
    let (p, ret) ← p.popleftN numBlocks
    let p ← ret.foldlM handOut p
    return (p, ret)

def touchOne (b : Nat) : Except PyError BlockPool :=
  if p.refCnt b = 0 ∧ b ≠ 0 then
    if b ∈ p.freeBlockQueue then
      .ok { p with
        freeBlockQueue := p.freeBlockQueue.erase b
        numFreeBlocks := p.numFreeBlocks - 1
        refCnt := Function.update p.refCnt b (p.refCnt b + 1) }
    else .error (.runtimeError s!"remove() called on an invalid block: {b}")
  else .ok { p with refCnt := Function.update p.refCnt b (p.refCnt b + 1) }

def touch (blocks : List Nat) : Except PyError BlockPool :=
  blocks.foldlM touchOne p

def freeBlocks (orderedBlocks : List Nat) : BlockPool :=
  let refCnt := orderedBlocks.foldl (fun r b => Function.update r b (r b - 1)) p.refCnt
  let freed := orderedBlocks.filter (fun b => refCnt b = 0 ∧ b ≠ 0)
  { p with
    refCnt := refCnt
    freeBlockQueue := p.freeBlockQueue ++ freed
    numFreeBlocks := p.numFreeBlocks + freed.length }

def evictBlocks (blockIds : List Nat) : Except PyError BlockPool :=
  blockIds.foldlM (fun p b =>
    if b < p.numGpuBlocks then .ok (p.maybeEvictCachedBlock b)
    else .error (.assertionError s!"Invalid block_id {b} >= {p.numGpuBlocks}. This indicates a bug in the KV connector - workers should only report block IDs that were allocated by the scheduler.")) p

def resetPrefixCache : BlockPool × Bool :=
  if (p.numGpuBlocks : Int) - p.numFreeBlocks ≠ 1 then (p, false)
  else ({ p with
    cachedBlockHashToBlock := fun _ => []
    blockHash := fun _ => none
    kvEventQueue := p.published .allBlocksCleared }, true)

def getNumEvictableBlocks (blocks : List Nat) : Nat :=
  blocks.countP (fun b => p.refCnt b = 0 ∧ b ≠ 0)

end BlockPool
end TailBlend
