import TailBlend.Manager

/-! The search for the longest prefix-cache hit, per kind of attention and over the
attention groups of a hybrid model. A hit of a set of groups is a list of rows, one per
block index, each holding one block per group. -/
namespace TailBlend.CacheHit

abbrev Rows := List (List Nat)

def alignedLength (blockSize alignmentTokens : Nat) : Nat → Nat
  | 0 => 0
  | n + 1 =>
    if blockSize ≠ alignmentTokens ∧ (n + 1) * blockSize % alignmentTokens ≠ 0 then
      alignedLength blockSize alignmentTokens n
    else n + 1

def popUnaligned (blockSize alignmentTokens : Nat) (rows : Rows) : Rows :=
  rows.take (alignedLength blockSize alignmentTokens rows.length)

def popEagle (useEagle : Bool) (rows : Rows) : Rows := if useEagle then rows.dropLast else rows

def scan (p : BlockPool) (groupIds : List Nat) : List (List BlockHash) → Rows
  | [] => []
  | h :: hs =>
    match p.getCachedBlock h groupIds with
    | some row => row :: scan p groupIds hs
    | none => []

variable (p : BlockPool)

def fullAttention (hashes : List (List BlockHash)) (maxLength : Nat)
    (groupIds : List Nat) (blockSize : Nat) (useEagle : Bool) (alignmentTokens : Nat) : Rows :=
  let computed := scan p groupIds (hashes.take (maxLength / blockSize))
  popUnaligned blockSize alignmentTokens (popEagle useEagle computed)

/-- The search from right to left; `i` is the number of indices left, and the result also
holds the length of the current run and whether the window was filled. -/
def slidingSearch (p : BlockPool) (hashes : List (List BlockHash)) (groupIds : List Nat)
    (blockSize : Nat) (useEagle : Bool) (alignmentTokens needed : Nat) :
    Nat → Rows → Nat → Except PyError (Rows × Nat × Bool)
  | 0, computed, run => .ok (computed, run, false)
  | i + 1, computed, run =>
    match hashes[i]? with
    | none => .error .indexError
    | some h =>
      match p.getCachedBlock h groupIds with
      | some row =>
        if run = 0 ∧ blockSize ≠ alignmentTokens ∧
            (if useEagle then i else i + 1) * blockSize % alignmentTokens ≠ 0 then
          slidingSearch p hashes groupIds blockSize useEagle alignmentTokens needed i computed run
        else if run + 1 ≥ needed then .ok ((computed.set i row).take (i + (run + 1)), run + 1, true)
        else slidingSearch p hashes groupIds blockSize useEagle alignmentTokens needed i
          (computed.set i row) (run + 1)
      | none => slidingSearch p hashes groupIds blockSize useEagle alignmentTokens needed i
          computed 0

def nullRow (groupIds : List Nat) : List Nat := List.replicate groupIds.length 0

def slidingWindow (hashes : List (List BlockHash)) (maxLength : Nat)
    (groupIds : List Nat) (blockSize window : Nat) (useEagle : Bool) (alignmentTokens : Nat) :
    Except PyError Rows := do
  let needed := (cdiv (window - 1 : Int) blockSize).toNat + (if useEagle then 1 else 0)
  let maxNumBlocks := maxLength / blockSize
  let (computed, run, matchFound) ← slidingSearch p hashes groupIds blockSize useEagle
    alignmentTokens needed maxNumBlocks (List.replicate maxNumBlocks (nullRow groupIds)) 0
  let computed :=
    if matchFound then computed else popUnaligned blockSize alignmentTokens (computed.take run)
  if useEagle ∧ computed ≠ [] then
    return popUnaligned blockSize alignmentTokens computed.dropLast
  else return computed

def scanFrom (p : BlockPool) (hashes : List (List BlockHash)) (groupIds : List Nat) :
    Nat → Nat → Except PyError Rows
  | 0, _ => .ok []
  | n + 1, i =>
    match hashes[i]? with
    | none => .error .indexError
    | some h =>
      match p.getCachedBlock h groupIds with
      | some row => do
        let rest ← scanFrom p hashes groupIds n (i + 1)
        return row :: rest
      | none => .ok []

def chunkedLocal (hashes : List (List BlockHash)) (maxLength : Nat)
    (groupIds : List Nat) (blockSize chunk : Nat) (useEagle : Bool) (alignmentTokens : Nat) :
    Except PyError Rows := do
  pyAssert (useEagle = false)
    "Hybrid KV cache is not supported for eagle + chunked local attention."
  pyAssert (blockSize = alignmentTokens)
    "KV cache groups with different block sizes are not compatible with chunked local attention now"
  let maxNumBlocks := maxLength / blockSize
  let start := maxLength / chunk * chunk / blockSize
  let hits ← scanFrom p hashes groupIds (maxNumBlocks - start) start
  return List.replicate start (nullRow groupIds) ++ hits

def mambaSearch (p : BlockPool) (hashes : List (List BlockHash)) (groupIds : List Nat)
    (blockSize alignmentTokens : Nat) : Nat → Except PyError Rows
  | 0 => .ok []
  | i + 1 =>
    match hashes[i]? with
    | none => .error .indexError
    | some h =>
      match p.getCachedBlock h groupIds with
      | some row =>
        if blockSize ≠ alignmentTokens ∧ (i + 1) * blockSize % alignmentTokens ≠ 0 then
          mambaSearch p hashes groupIds blockSize alignmentTokens i
        else .ok (List.replicate i (nullRow groupIds) ++ [row])
      | none => mambaSearch p hashes groupIds blockSize alignmentTokens i

def findLongestCacheHit (spec : KVCacheSpec) (hashes : List (List BlockHash))
    (maxLength : Nat) (groupIds : List Nat) (useEagle : Bool) (alignmentTokens : Nat) :
    Except PyError Rows :=
  match spec.kind with
  | .fullAttention _ =>
    .ok (fullAttention p hashes maxLength groupIds spec.blockSize useEagle alignmentTokens)
  | .slidingWindow w =>
    slidingWindow p hashes maxLength groupIds spec.blockSize w useEagle alignmentTokens
  | .chunkedLocal c =>
    chunkedLocal p hashes maxLength groupIds spec.blockSize c useEagle alignmentTokens
  | .mamba _ _ =>
    mambaSearch p hashes groupIds spec.blockSize alignmentTokens (maxLength / spec.blockSize)
  | .crossAttention =>
    .error (.notImplementedError "CrossAttentionManager does not support caching")

/-- An entry of `attention_groups`: the groups that share a spec, and whether one of them
gets the EAGLE drop. -/
structure AttentionGroup where
  spec : KVCacheSpec
  groupIds : List Nat
  isEagle : Bool

def addGroup (i : Nat) (spec : KVCacheSpec) :
    List (KVCacheSpec × List Nat) → List (KVCacheSpec × List Nat)
  | [] => [(spec, [i])]
  | g :: gs => if g.1 = spec then (g.1, g.2 ++ [i]) :: gs else g :: addGroup i spec gs

def groupBySpec (specs : List KVCacheSpec) : List (KVCacheSpec × List Nat) :=
  specs.zipIdx.foldl (fun gs s => addGroup s.2 s.1 gs) []

/-- `verify_and_split_kv_cache_groups`: full attention first. -/
def attentionGroups (specs : List KVCacheSpec) (eagleGroupIds : List Nat) :
    List AttentionGroup :=
  let groups := (groupBySpec specs).map (fun g =>
    ({ spec := g.1, groupIds := g.2, isEagle := g.2.any (fun i => i ∈ eagleGroupIds) } :
      AttentionGroup))
  groups.filter (fun g => g.spec.kind.isFullAttention) ++
    groups.filter (fun g => !g.spec.kind.isFullAttention)

section
variable (groups : List AttentionGroup)

def lcmBlockSize : Nat :=
  groups.foldl (fun n g => Nat.lcm n g.spec.blockSize) 1

/-- State of the fixed-point loop. Rows are kept per attention group; `none` before the
first search. -/
structure HitState where
  currHitLength : Nat
  eagleVerified : List Nat
  hitRows : Nat → Option Rows

def passGroup (blockHashes : List BlockHash) (maxCacheHitLength lcm : Nat)
    (s : HitState) (entry : AttentionGroup × Nat) : Except PyError HitState :=
  let (g, idx) := entry
  let blockSize := g.spec.blockSize
  -- full attention is looked up once, then only trimmed
  if g.spec.kind.isFullAttention ∧ (s.hitRows idx).isSome then
    .ok { s with currHitLength := s.currHitLength / blockSize * blockSize }
  else do
    let useEagle := g.isEagle && decide (idx ∉ s.eagleVerified)
    let maxLength :=
      if useEagle then min (s.currHitLength + blockSize) maxCacheHitLength else s.currHitLength
    let rows ← findLongestCacheHit p g.spec (hashesAt blockHashes p.hashBlockSize blockSize)
      maxLength g.groupIds useEagle lcm
    let newHitLength := rows.length * blockSize
    return {
      currHitLength := newHitLength
      eagleVerified :=
        if useEagle then idx :: s.eagleVerified
        else if newHitLength < s.currHitLength then [] else s.eagleVerified
      hitRows := Function.update s.hitRows idx (some rows) }

def pass (blockHashes : List BlockHash) (maxCacheHitLength lcm : Nat)
    (groups : List AttentionGroup) (s : HitState) : Except PyError HitState :=
  groups.zipIdx.foldlM (passGroup p blockHashes maxCacheHitLength lcm) s

def isSimpleHybrid : Bool :=
  groups.length = 2 && (groups.head?.map (fun g => g.spec.kind.isFullAttention)).getD false

/-- The `while True` loop with the current `hit_length`; `none` when the fuel runs out. -/
def fixedPoint (p : BlockPool) (blockHashes : List BlockHash) (maxCacheHitLength lcm : Nat)
    (groups : List AttentionGroup) :
    Nat → Nat → HitState → Except PyError (Option (Nat × HitState))
  | 0, _, _ => .ok none
  | fuel + 1, hitLength, s => do
    let s ← pass p blockHashes maxCacheHitLength lcm groups { s with currHitLength := hitLength }
    if s.currHitLength ≥ hitLength then return some (hitLength, s)
    else if isSimpleHybrid groups then return some (s.currHitLength, s)
    else fixedPoint p blockHashes maxCacheHitLength lcm groups fuel s.currHitLength s

def column (rows : Rows) (j : Nat) : List Nat := rows.map (fun row => row.getD j 0)

def finalRows (hitLength : Nat) (s : HitState) (idx : Nat) : Rows :=
  let rows := (s.hitRows idx).getD []
  match idx, groups.head? with
  | 0, some g =>
    if g.spec.kind.isFullAttention then rows.take (hitLength / g.spec.blockSize) else rows
  | _, _ => rows

def groupBlocks (rowsOf : Nat → Rows) (i : Nat) : List Nat :=
  match groups.zipIdx.find? (fun e => i ∈ e.1.groupIds) with
  | none => []
  | some (g, idx) => column (rowsOf idx) (g.groupIds.idxOf i)

end

def hybrid (specs : List KVCacheSpec) (eagleGroupIds : List Nat)
    (blockHashes : List BlockHash) (maxCacheHitLength : Nat) :
    Except PyError (Option (List (List Nat) × Nat)) := do
  let groups := attentionGroups specs eagleGroupIds
  let start : HitState :=
    { currHitLength := maxCacheHitLength, eagleVerified := [], hitRows := fun _ => none }
  let res ← fixedPoint p blockHashes maxCacheHitLength (lcmBlockSize groups) groups
    (maxCacheHitLength + 1) maxCacheHitLength start
  return res.map (fun (hitLength, s) =>
    ((List.range specs.length).map (groupBlocks groups (finalRows groups hitLength s)), hitLength))

def unitary (spec : KVCacheSpec) (eagleGroupIds : List Nat)
    (blockHashes : List BlockHash) (maxCacheHitLength : Nat) :
    Except PyError (List (List Nat) × Nat) := do
  let rows ← findLongestCacheHit p spec (hashesAt blockHashes p.hashBlockSize spec.blockSize)
    maxCacheHitLength [0] (decide (0 ∈ eagleGroupIds)) spec.blockSize
  return ([column rows 0], rows.length * spec.blockSize)

end TailBlend.CacheHit
