import TailBlend.Request

/-! The block hashes of a request against hashing its tokens from scratch. -/
namespace TailBlend
open MmFeature List

namespace MmFeature

def Overlaps (f : MmFeature) (start stop : Nat) : Prop :=
  f.offset < stop ∧ start < f.offset + f.length

instance (f : MmFeature) (start stop : Nat) : Decidable (f.Overlaps start stop) :=
  inferInstanceAs (Decidable (_ ∧ _))

def key (f : MmFeature) (start : Nat) : ExtraKey := .mm f.identifier ((f.offset : Int) - start)

/-- The items of a list that cover a position of the block, with their places in it. -/
def keysIn (fs : List MmFeature) (start stop : Nat) : List ExtraKey :=
  (fs.filter (fun f => f.Overlaps start stop)).map (fun f => f.key start)

/-- The walk over the items leaves the block's loop at an item only when no later item is
in the block. -/
def Unblocked (start stop : Nat) : List MmFeature → Prop
  | [] => True
  | f :: fs => (f.offset < stop ∧ f.offset + f.length ≤ stop ∧ Unblocked start stop fs) ∨
      ∀ g ∈ fs, ¬g.Overlaps start stop

instance decidableUnblocked (start stop : Nat) :
    (fs : List MmFeature) → Decidable (Unblocked start stop fs)
  | [] => .isTrue trivial
  | _ :: fs =>
    have := decidableUnblocked start stop fs
    inferInstanceAs (Decidable (_ ∨ _))

variable {start stop : Nat}

variable {fs : List MmFeature} {f : MmFeature}

theorem keysIn_nil_of_none (h : ∀ g ∈ fs, ¬g.Overlaps start stop) : keysIn fs start stop = [] := by
  unfold keysIn
  rw [filter_eq_nil_iff.mpr (by simpa using h), map_nil]

theorem keysIn_cons_of_overlaps (fs : List MmFeature) (h : f.Overlaps start stop) :
    keysIn (f :: fs) start stop = f.key start :: keysIn fs start stop := by
  simp [keysIn, h]

theorem keysIn_cons_of_not (fs : List MmFeature) (h : ¬f.Overlaps start stop) :
    keysIn (f :: fs) start stop = keysIn fs start stop := by
  simp [keysIn, h]

theorem keysIn_append (fs gs : List MmFeature) :
    keysIn (fs ++ gs) start stop = keysIn fs start stop ++ keysIn gs start stop := by
  simp [keysIn]

theorem unblocked_of_none (h : ∀ g ∈ fs, ¬g.Overlaps start stop) : Unblocked start stop fs := by
  cases fs with
  | nil => trivial
  | cons f fs => exact .inr (fun g hg => h g (mem_cons_of_mem _ hg))

theorem Unblocked.tail (h : Unblocked start stop (f :: fs)) : Unblocked start stop fs := by
  obtain ⟨-, -, h⟩ | h := h
  · exact h
  · exact unblocked_of_none h

theorem Unblocked.drop (h : Unblocked start stop fs) (n : Nat) :
    Unblocked start stop (fs.drop n) := by
  induction n generalizing fs with
  | zero => exact h
  | succ n ih =>
    cases fs with
    | nil => trivial
    | cons f fs => exact ih h.tail

end MmFeature

namespace Request
variable {α : Type}

variable {start stop : Nat} {mmIdx : Int} {req : Request α}

theorem genMmExtraHashKeys_spec (hle : start ≤ stop) (fs : List MmFeature)
    (h : Unblocked start stop fs) (idx : Nat) :
    (genMmExtraHashKeys start stop fs idx).1 = keysIn fs start stop ∧
      ∃ d, (genMmExtraHashKeys start stop fs idx).2 = idx + d ∧
        ∀ g ∈ fs.take d, g.offset + g.length ≤ stop := by
  induction fs generalizing idx with
  | nil => exact ⟨rfl, 0, rfl, nofun⟩
  | cons f fs ih =>
    simp only [genMmExtraHashKeys]
    have hpass (hend : f.offset + f.length ≤ stop) {d : Nat}
        (hd : ∀ g ∈ fs.take d, g.offset + g.length ≤ stop) :
        ∀ g ∈ (f :: fs).take (d + 1), g.offset + g.length ≤ stop := by
      rw [take_succ_cons, forall_mem_cons]
      exact ⟨hend, hd⟩
    by_cases hreach : stop > f.offset
    · rw [if_pos hreach]
      by_cases hpast : start ≥ f.offset + f.length
      · rw [if_pos hpast]
        have hnot : ¬f.Overlaps start stop := fun ho => by
          have := ho.2
          omega
        obtain ⟨hkeys, d, hidx, hd⟩ := ih h.tail (idx + 1)
        exact ⟨by rw [hkeys, keysIn_cons_of_not fs hnot], d + 1, by omega, hpass (by omega) hd⟩
      rw [if_neg hpast]
      have hover : f.Overlaps start stop := ⟨hreach, by omega⟩
      by_cases hend : stop ≥ f.offset + f.length
      · rw [if_pos hend]
        obtain ⟨hkeys, d, hidx, hd⟩ := ih h.tail (idx + 1)
        refine ⟨?_, d + 1, by simp only [hidx]; omega, hpass hend hd⟩
        rw [keysIn_cons_of_overlaps fs hover, ← hkeys]
        rfl
      rw [if_neg hend]
      obtain ⟨-, hin, -⟩ | hnone := h
      · exact absurd hin hend
      · refine ⟨?_, 0, rfl, nofun⟩
        rw [keysIn_cons_of_overlaps fs hover, keysIn_nil_of_none hnone]
        rfl
    · rw [if_neg hreach]
      obtain ⟨hlt, -, -⟩ | hnone := h
      · exact absurd hlt hreach
      · have hnot : ¬f.Overlaps start stop := fun ho => hreach ho.1
        refine ⟨?_, 0, rfl, nofun⟩
        rw [keysIn_cons_of_not fs hnot, keysIn_nil_of_none hnone]

/-! Hashing from scratch. -/

section scratch
variable (req : Request α) (blockSize : Nat)

/-- The extra keys of a block: the LoRA name, every item that overlaps it, the salt and the
embeddings. -/
def blockKeys (start stop : Nat) : List ExtraKey :=
  req.loraKeys ++ keysIn req.mmFeatures start stop ++ req.saltKeys start ++
    req.promptEmbedsKeys start stop

def scratchBlocks : Nat → Nat → BlockHash → List BlockHash
  | 0, _, _ => []
  | n + 1, start, prev =>
    let h := BlockHash.block prev ((req.allTokenIds.drop start).take blockSize)
      (req.blockKeys start (start + blockSize))
    h :: scratchBlocks n (start + blockSize) h

def scratchHashes : List BlockHash :=
  req.scratchBlocks blockSize (req.allTokenIds.length / blockSize) 0 .noneHash

def Described : Prop :=
  ∀ size ∈ req.hashBlockSize, req.blockHashes.1 = req.scratchHashes size

theorem length_scratchBlocks (n start : Nat) (prev : BlockHash) :
    (req.scratchBlocks blockSize n start prev).length = n := by
  induction n generalizing start prev with
  | zero => rfl
  | succ n ih => simpa [scratchBlocks] using ih _ _

theorem scratchBlocks_add (m n start : Nat) (prev : BlockHash) :
    req.scratchBlocks blockSize (m + n) start prev =
      req.scratchBlocks blockSize m start prev ++
        req.scratchBlocks blockSize n (start + m * blockSize)
          ((req.scratchBlocks blockSize m start prev).getLastD prev) := by
  induction m generalizing start prev with
  | zero => simp [scratchBlocks]
  | succ m ih =>
    rw [Nat.succ_add]
    simp only [scratchBlocks, getLastD_cons]
    rw [ih, Nat.succ_mul]
    congr 3
    omega

theorem scratchBlocks_congr (req' : Request α) (hlora : req'.loraRequest = req.loraRequest)
    (hsalt : req'.cacheSalt = req.cacheSalt) (hembeds : req'.promptEmbeds = req.promptEmbeds)
    (n start : Nat) (prev : BlockHash)
    (htokens : ∀ j < n, (req'.allTokenIds.drop (start + j * blockSize)).take blockSize =
      (req.allTokenIds.drop (start + j * blockSize)).take blockSize)
    (hitems : ∀ j < n, keysIn req'.mmFeatures (start + j * blockSize)
        (start + (j + 1) * blockSize) =
      keysIn req.mmFeatures (start + j * blockSize) (start + (j + 1) * blockSize)) :
    req'.scratchBlocks blockSize n start prev = req.scratchBlocks blockSize n start prev := by
  induction n generalizing start prev with
  | zero => rfl
  | succ n ih =>
    have hshift (j : Nat) : start + blockSize + j * blockSize = start + (j + 1) * blockSize := by
      rw [Nat.succ_mul]
      omega
    have hkeys : req'.blockKeys start (start + blockSize) =
        req.blockKeys start (start + blockSize) := by
      have h0 := hitems 0 (by omega)
      rw [Nat.zero_mul, Nat.add_zero, Nat.one_mul] at h0
      unfold blockKeys loraKeys saltKeys promptEmbedsKeys
      rw [h0, hlora, hsalt, hembeds]
    have htok := htokens 0 (by omega)
    rw [Nat.zero_mul, Nat.add_zero] at htok
    simp only [scratchBlocks]
    rw [hkeys, htok]
    refine congrArg _ (ih _ _ (fun j hj => ?_) (fun j hj => ?_))
    · rw [hshift]
      exact htokens (j + 1) (by omega)
    · rw [hshift, hshift]
      exact hitems (j + 1) (by omega)

end scratch

/-! The hasher against hashing from scratch. -/

section
variable (fs : List MmFeature)

/-- A block that is hashed with the walk over the items started at index `first` gets all its
items: none of them stands before `first`, none is hidden behind an item that ends after the
block, and the last item does not end before the block while another one reaches into it. -/
def KeysSeen (first start stop : Nat) : Prop :=
  (∀ g ∈ fs.take first, ¬g.Overlaps start stop) ∧
    Unblocked start stop (fs.drop first) ∧
    ∀ last ∈ fs.getLast?, last.offset + last.length ≤ start → ∀ g ∈ fs, ¬g.Overlaps start stop

instance (first start stop : Nat) : Decidable (KeysSeen fs first start stop) :=
  inferInstanceAs (Decidable (_ ∧ _ ∧ _))

def resolveIdx (mmIdx : Int) : Nat :=
  (if mmIdx < 0 then fs.length + mmIdx else mmIdx).toNat

def Passed (first : Nat) (mmIdx : Int) (start : Nat) : Prop :=
  first ≤ resolveIdx fs mmIdx ∧ ∀ i g, first ≤ i → i < resolveIdx fs mmIdx → fs[i]? = some g →
    g.offset + g.length ≤ start

theorem Passed.mono {fs : List MmFeature} {first : Nat} (h : Passed fs first mmIdx start)
    (hle : start ≤ stop) : Passed fs first mmIdx stop :=
  ⟨h.1, fun i g hi hlt hg => (h.2 i g hi hlt hg).trans hle⟩

theorem mmExtraKeys_spec (req : Request α) {first : Nat} (hle : start ≤ stop)
    (hseen : KeysSeen req.mmFeatures first start stop)
    (hpass : Passed req.mmFeatures first mmIdx start) :
    (req.mmExtraKeys start stop mmIdx).1 = keysIn req.mmFeatures start stop ∧
      Passed req.mmFeatures first (req.mmExtraKeys start stop mmIdx).2 stop := by
  obtain ⟨hbefore, hfree, hlast⟩ := hseen
  unfold mmExtraKeys
  cases hl : req.mmFeatures.getLast? with
  | none =>
    obtain hnil : req.mmFeatures = [] := getLast?_eq_none_iff.mp hl
    exact ⟨by rw [hnil]; rfl, hpass.mono hle⟩
  | some last =>
    simp only
    by_cases hend : last.offset + last.length ≤ start
    · rw [if_pos hend]
      exact ⟨(keysIn_nil_of_none (hlast last hl hend)).symm, hpass.mono hle⟩
    rw [if_neg hend]
    set idx := resolveIdx req.mmFeatures mmIdx with hidx
    have hdrop : Unblocked start stop (req.mmFeatures.drop idx) := by
      have := hfree.drop (idx - first)
      rwa [drop_drop, Nat.add_sub_cancel' hpass.1] at this
    obtain ⟨hkeys, d, hnext, hd⟩ := genMmExtraHashKeys_spec hle _ hdrop idx
    have hskipped (g : MmFeature) (hg : g ∈ req.mmFeatures.take idx) :
        ¬g.Overlaps start stop := by
      obtain ⟨i, hi, rfl⟩ := mem_take_iff_getElem.mp hg
      have hget : req.mmFeatures[i]? = some req.mmFeatures[i] := getElem?_eq_getElem _
      by_cases hif : i < first
      · exact hbefore _ (mem_take_iff_getElem.mpr ⟨i, by omega, rfl⟩)
      intro ho
      have := hpass.2 i _ (by omega) (by omega) hget
      have := ho.2
      omega
    change (genMmExtraHashKeys start stop (req.mmFeatures.drop idx) idx).1 = _ ∧
      Passed req.mmFeatures first
        ((genMmExtraHashKeys start stop (req.mmFeatures.drop idx) idx).2 : Int) stop
    have hres : resolveIdx req.mmFeatures ((idx + d : Nat) : Int) = idx + d := by
      unfold resolveIdx
      omega
    refine ⟨?_, ?_⟩
    · conv_rhs => rw [← take_append_drop idx req.mmFeatures]
      rw [hkeys, keysIn_append, keysIn_nil_of_none hskipped, nil_append]
    rw [hnext]
    refine ⟨by rw [hres]; exact hpass.1.trans (Nat.le_add_right _ _), fun i g hi hlt hg => ?_⟩
    by_cases hold : i < idx
    · exact (hpass.2 i g hi hold hg).trans hle
    · refine hd g (mem_iff_getElem?.mpr ⟨i - idx, ?_⟩)
      rw [getElem?_take_of_lt (by omega), getElem?_drop, Nat.add_sub_cancel' (by omega), hg]

theorem hashBlocks_eq_scratchBlocks (req : Request α) (blockSize first : Nat) {n : Nat}
    {prev : BlockHash} (hseen : ∀ j < n, KeysSeen req.mmFeatures first (start + j * blockSize)
      (start + (j + 1) * blockSize)) (hpass : Passed req.mmFeatures first mmIdx start) :
    req.hashBlocks blockSize n start prev mmIdx = req.scratchBlocks blockSize n start prev := by
  induction n generalizing start prev mmIdx with
  | zero => rfl
  | succ n ih =>
    have h0 := hseen 0 (by omega)
    rw [Nat.zero_mul, Nat.add_zero, Nat.one_mul] at h0
    obtain ⟨hkeys, hnext⟩ := mmExtraKeys_spec req (by omega) h0 hpass
    have hextra : (req.extraKeys start (start + blockSize) mmIdx).1 =
        req.blockKeys start (start + blockSize) := by
      unfold extraKeys blockKeys
      simp only [hkeys]
    simp only [hashBlocks, hextra]
    refine congrArg _ (ih (fun j hj => ?_) hnext)
    have hshift (i : Nat) : start + blockSize + i * blockSize = start + (i + 1) * blockSize := by
      rw [Nat.succ_mul]
      omega
    rw [hshift, hshift]
    exact hseen (j + 1) (by omega)

/-! What the calls keep. -/

/-- Every block that `update_block_hashes` would hash now gets all its items. The walk starts at
the first item when there is no hash yet, and else at the last one. -/
def NewBlocksSeen (req : Request α) : Prop :=
  ∀ blockSize ∈ req.hashBlockSize, ∀ j < req.allTokenIds.length / blockSize,
    req.blockHashes.1.length ≤ j →
      KeysSeen req.mmFeatures
        (if req.blockHashes.1.length = 0 then 0 else req.mmFeatures.length - 1)
        (j * blockSize) ((j + 1) * blockSize)

instance (req : Request α) : Decidable req.NewBlocksSeen :=
  inferInstanceAs (Decidable (∀ blockSize ∈ req.hashBlockSize,
    ∀ j < req.allTokenIds.length / blockSize, _ ≤ j → _))

theorem passed_start {k blockSize : Nat} (hpos : 0 < k → 0 < blockSize)
    (start : Nat) : Passed fs (if k = 0 then 0 else fs.length - 1)
      (if k * blockSize > 0 then -1 else 0) start := by
  by_cases hk : k = 0
  · rw [hk, Nat.zero_mul]
    exact ⟨Nat.zero_le _, fun i g _ hlt _ => absurd hlt (Nat.not_lt_zero i)⟩
  have hstart : k * blockSize > 0 := Nat.mul_pos (by omega) (hpos (by omega))
  have hres : resolveIdx fs (-1) = fs.length - 1 := by
    unfold resolveIdx
    omega
  rw [if_neg hk, if_pos hstart]
  refine ⟨by rw [hres], fun i g hi hlt _ => ?_⟩
  omega

end

theorem newBlockHashes_eq {blockSize : Nat} (hsize : req.hashBlockSize = some blockSize)
    (hle : req.blockHashes.1.length ≤ req.allTokenIds.length / blockSize)
    (hseen : req.NewBlocksSeen) :
    req.newBlockHashes blockSize = req.scratchBlocks blockSize
      (req.allTokenIds.length / blockSize - req.blockHashes.1.length)
      (req.blockHashes.1.length * blockSize) (req.blockHashes.1.getLastD .noneHash) := by
  set k := req.blockHashes.1.length with hk
  have hpos (hkpos : 0 < k) : 0 < blockSize := by
    rcases Nat.eq_zero_or_pos blockSize with hzero | hpos
    · rw [hzero] at hle
      omega
    · exact hpos
  have hcount : (req.allTokenIds.length - k * blockSize) / blockSize =
      req.allTokenIds.length / blockSize - k := by
    rw [Nat.mul_comm, Nat.sub_mul_div]
  change req.hashBlocks blockSize ((req.allTokenIds.length - k * blockSize) / blockSize)
    (k * blockSize) _ (if k * blockSize > 0 then -1 else 0) = _
  rw [hcount]
  refine hashBlocks_eq_scratchBlocks req blockSize _ (fun j hj => ?_) (passed_start _ hpos _)
  have := hseen blockSize hsize (k + j) (by omega) (by omega)
  rwa [Nat.add_mul, Nat.add_assoc k j 1, Nat.add_mul] at this

def withHashes (req : Request α) (hashes : HashChain) : Request α :=
  { req with blockHashes := hashes }

theorem updateBlockHashes_eq (req : Request α) : ∃ hashes : HashChain,
    req.updateBlockHashes = req.withHashes hashes ∧ ∀ blockSize ∈ req.hashBlockSize,
      hashes.1 = req.blockHashes.1 ++ req.newBlockHashes blockSize := by
  unfold updateBlockHashes
  split
  · rename_i hnone
    refine ⟨req.blockHashes, rfl, fun size hs => ?_⟩
    rw [hnone] at hs
    cases hs
  rename_i blockSize hsome
  refine ⟨_, rfl, fun size hs => ?_⟩
  rw [hsome] at hs
  obtain rfl := Option.some_inj.mp hs
  rfl

theorem updateBlockHashes_described (hold : ∀ blockSize ∈ req.hashBlockSize,
      req.blockHashes.1.length ≤ req.allTokenIds.length / blockSize ∧
      req.blockHashes.1 = req.scratchBlocks blockSize req.blockHashes.1.length 0 .noneHash)
    (hseen : req.NewBlocksSeen) : req.updateBlockHashes.Described := by
  obtain ⟨hashes, heq, hhashes⟩ := updateBlockHashes_eq req
  rw [heq]
  intro blockSize hsize
  change req.hashBlockSize = some blockSize at hsize
  obtain ⟨hle, htaken⟩ := hold blockSize hsize
  have hsplit := scratchBlocks_add req blockSize req.blockHashes.1.length
    (req.allTokenIds.length / blockSize - req.blockHashes.1.length) 0 .noneHash
  rw [Nat.add_sub_cancel' hle, Nat.zero_add, ← htaken] at hsplit
  have hfields := scratchBlocks_congr req blockSize (req.withHashes hashes) rfl rfl rfl
    (req.allTokenIds.length / blockSize) 0 .noneHash (fun _ _ => rfl) (fun _ _ => rfl)
  calc hashes.1
      = req.blockHashes.1 ++ req.newBlockHashes blockSize := hhashes blockSize hsize
    _ = req.scratchBlocks blockSize (req.allTokenIds.length / blockSize) 0 .noneHash := by
      rw [newBlockHashes_eq hsize hle hseen, hsplit]
    _ = (req.withHashes hashes).scratchHashes blockSize := hfields.symm

theorem block_eq_of_take {β : Type} {l l' : List β} {n a b : Nat} (h : l'.take n = l.take n)
    (hle : a + b ≤ n) : (l'.drop a).take b = (l.drop a).take b := by
  have htaken (x : List β) : (x.drop a).take b = ((x.take n).take (a + b)).drop a := by
    rw [take_take, Nat.min_eq_left hle, drop_take, Nat.add_sub_cancel_left]
  rw [htaken, htaken, h]

theorem Described.congr (h : req.Described) (req' : Request α)
    (hlora : req'.loraRequest = req.loraRequest) (hsalt : req'.cacheSalt = req.cacheSalt)
    (hembeds : req'.promptEmbeds = req.promptEmbeds) (hhashes : req'.blockHashes = req.blockHashes)
    (hsize : req'.hashBlockSize = req.hashBlockSize) (htokens : req'.allTokenIds = req.allTokenIds)
    (hitems : req'.mmFeatures = req.mmFeatures) : req'.Described := by
  intro blockSize hb
  rw [hsize] at hb
  rw [hhashes, h blockSize hb, scratchHashes, scratchHashes, htokens]
  exact (scratchBlocks_congr req blockSize req' hlora hsalt hembeds _ _ _
    (fun _ _ => by rw [htokens]) (fun _ _ => by rw [hitems])).symm

theorem Described.extend (h : req.Described) (req' : Request α)
    (hlora : req'.loraRequest = req.loraRequest) (hsalt : req'.cacheSalt = req.cacheSalt)
    (hembeds : req'.promptEmbeds = req.promptEmbeds) (hhashes : req'.blockHashes = req.blockHashes)
    (hsize : req'.hashBlockSize = req.hashBlockSize) (added : List MmFeature)
    (hitems : req'.mmFeatures = req.mmFeatures ++ added) (hkept : ∀ blockSize ∈ req.hashBlockSize,
      req'.allTokenIds.take (req.blockHashes.1.length * blockSize) =
        req.allTokenIds.take (req.blockHashes.1.length * blockSize) ∧
      ∀ j < req.blockHashes.1.length, ∀ g ∈ added, ¬g.Overlaps (j * blockSize) ((j + 1) * blockSize))
    (blockSize : Nat) (hb : blockSize ∈ req'.hashBlockSize) :
    req'.blockHashes.1.length ≤ req'.allTokenIds.length / blockSize ∧
      req'.blockHashes.1 = req'.scratchBlocks blockSize req'.blockHashes.1.length 0 .noneHash := by
  rw [hsize] at hb
  obtain ⟨htokens, hnew⟩ := hkept blockSize hb
  have hscratch := h blockSize hb
  have hcount : req.blockHashes.1.length = req.allTokenIds.length / blockSize := by
    rw [hscratch]
    exact length_scratchBlocks req blockSize _ _ _
  set k := req.blockHashes.1.length with hk
  rw [hhashes, ← hk]
  refine ⟨?_, ?_⟩
  · rcases Nat.eq_zero_or_pos blockSize with hzero | hpos
    · rw [hzero, Nat.div_zero] at hcount
      rw [hcount]
      exact Nat.zero_le _
    have hfull : k * blockSize ≤ req.allTokenIds.length := by
      rw [hcount]
      exact Nat.div_mul_le_self _ _
    have hlen := congrArg List.length htokens
    rw [length_take, length_take] at hlen
    exact (Nat.le_div_iff_mul_le hpos).mpr (by omega)
  rw [scratchBlocks_congr req blockSize req' hlora hsalt hembeds k 0 .noneHash
    (fun j hj => block_eq_of_take htokens ?_) (fun j hj => ?_)]
  · rw [hscratch, scratchHashes, hcount]
  · have := Nat.mul_le_mul_right blockSize (show j + 1 ≤ k from hj)
    rw [Nat.succ_mul] at this
    omega
  · rw [hitems, keysIn_append, Nat.zero_add, Nat.zero_add,
      keysIn_nil_of_none (hnew j hj), append_nil]

/-! Sequences of calls. -/

/-- What happens to the tokens of a request; `num_computed_tokens` moves in between. -/
inductive TokenOp where
  | append (now : ℚ) (tokens : List Int)
  | session (update : StreamingUpdate)
  | computed (n : Int)

def TokenOp.apply (req : Request α) : TokenOp → Request α
  | append now tokens => req.appendOutputTokenIds now tokens
  | session update => req.updateAsSession update
  | computed n => { req with numComputedTokens := n }

/-- The update keeps the tokens of the blocks that are hashed already and adds no item to them. -/
def HashedKept (req : Request α) (update : StreamingUpdate) : Prop :=
  ∀ blockSize ∈ req.hashBlockSize,
    (req.extendSession update).allTokenIds.take (req.blockHashes.1.length * blockSize) =
      req.allTokenIds.take (req.blockHashes.1.length * blockSize) ∧
    ∀ j < req.blockHashes.1.length,
      ∀ g ∈ (req.extendSession update).mmFeatures.drop req.mmFeatures.length,
        ¬g.Overlaps (j * blockSize) ((j + 1) * blockSize)

instance (req : Request α) (update : StreamingUpdate) : Decidable (req.HashedKept update) :=
  inferInstanceAs (Decidable (∀ blockSize ∈ req.hashBlockSize, _ ∧ ∀ j < _, ∀ g ∈ _, _))

/-- No hash becomes stale, and the blocks hashed by the call get all their items. -/
def TokenOp.Safe (req : Request α) : TokenOp → Prop
  | append now tokens => (req.pushTokens now tokens).NewBlocksSeen
  | session update => req.HashedKept update ∧ (req.extendSession update).NewBlocksSeen
  | computed _ => True

instance (req : Request α) (op : TokenOp) : Decidable (op.Safe req) := by
  cases op <;> unfold TokenOp.Safe <;> infer_instance

def runTokenOps (req : Request α) (ops : List TokenOp) : Request α :=
  ops.foldl TokenOp.apply req

def SafeOps : Request α → List TokenOp → Prop
  | _, [] => True
  | req, op :: ops => op.Safe req ∧ SafeOps (op.apply req) ops

theorem TokenOp.described (h : req.Described) {op : TokenOp} (hsafe : op.Safe req) :
    (op.apply req).Described := by
  cases op with
  | append now tokens =>
    refine updateBlockHashes_described
      (h.extend (req.pushTokens now tokens) rfl rfl rfl rfl rfl [] (append_nil _).symm
        (fun blockSize hb => ⟨?_, nofun⟩)) hsafe
    have hscratch := congrArg List.length (h blockSize hb)
    rw [scratchHashes, length_scratchBlocks] at hscratch
    refine take_append_of_le_length ?_
    rw [hscratch]
    exact Nat.div_mul_le_self _ _
  | session update =>
    obtain ⟨hkept, hseen⟩ := hsafe
    have hnext := updateBlockHashes_described
      (h.extend (req.extendSession update) rfl rfl rfl rfl rfl
        ((req.extendSession update).mmFeatures.drop req.mmFeatures.length) ?_ hkept) hseen
    · exact hnext.congr _ rfl rfl rfl rfl rfl rfl rfl
    · simp [extendSession]
  | computed n => exact h.congr _ rfl rfl rfl rfl rfl rfl rfl

theorem runTokenOps_described (h : req.Described) {ops : List TokenOp} (hsafe : SafeOps req ops) :
    (req.runTokenOps ops).Described := by
  induction ops generalizing req with
  | nil => exact h
  | cons op ops ih => exact ih (op.described h hsafe.1) hsafe.2

theorem updateBlockHashes_hashBlockSize (req : Request α) :
    req.updateBlockHashes.hashBlockSize = req.hashBlockSize := by
  obtain ⟨hashes, heq, -⟩ := updateBlockHashes_eq req
  rw [heq]
  rfl

theorem runTokenOps_hashBlockSize (req : Request α) (ops : List TokenOp) :
    (req.runTokenOps ops).hashBlockSize = req.hashBlockSize := by
  induction ops generalizing req with
  | nil => rfl
  | cons op ops ih =>
    refine (ih (op.apply req)).trans ?_
    cases op with
    | append now tokens => exact updateBlockHashes_hashBlockSize (req.pushTokens now tokens)
    | session update => exact updateBlockHashes_hashBlockSize (req.extendSession update)
    | computed n => rfl

theorem scratchHashes_of_safe {args : Args α} {ops : List TokenOp} {blockSize : Nat}
    (hnew : (unhashed args).NewBlocksSeen) (hsafe : SafeOps (new args) ops)
    (hsize : args.hashBlockSize = some blockSize) :
    ((new args).runTokenOps ops).blockHashes.1 =
      ((new args).runTokenOps ops).scratchHashes blockSize := by
  have hfirst : (new args).Described :=
    updateBlockHashes_described (fun _ _ => ⟨Nat.zero_le _, rfl⟩) hnew
  have hkeep : ((new args).runTokenOps ops).hashBlockSize = some blockSize := by
    rw [runTokenOps_hashBlockSize, new, updateBlockHashes_hashBlockSize]
    exact hsize
  exact runTokenOps_described hfirst hsafe blockSize hkeep

/-- After every safe sequence of calls the block hashes of a request are those of its current
tokens, hashed from scratch. -/
theorem blockHashes_describe_tokens {args : Args α} {ops : List TokenOp}
    (hnew : (unhashed args).NewBlocksSeen) (hsafe : SafeOps (new args) ops) {blockSize : Nat}
    (hsize : args.hashBlockSize = some blockSize) :
    ((new args).runTokenOps ops).blockHashes.1 =
      ((new args).runTokenOps ops).scratchHashes blockSize :=
  scratchHashes_of_safe hnew hsafe hsize

/-! Sample requests with blocks of four tokens. -/

def hashedArgs (prompt : List Int) (items : List MmFeature) : Args Nat where
  requestId := 0
  externalReqId := none
  priority := 0
  arrivalTime := 0
  task := .sampling ⟨0, none, [], [], none⟩ 100 false
  loraRequest := none
  prompt := .tokens prompt
  cacheSalt := none
  mmFeatures := items
  hashBlockSize := some 4
  skipReadingPrefixCache := false
  resumable := true

def oneToken (identifier : String) (offset : Nat) : MmFeature := ⟨identifier, offset, 1, none, nofun⟩

/-- Two items in a block that is completed by output tokens: only the last one is hashed. -/
def twoItems : Args Nat := hashedArgs [1, 2, 3, 4, 5, 6] [oneToken "first" 4, oneToken "second" 5]

/-- The sampled token that an update drops had completed a block. -/
def fullBlock : Args Nat := hashedArgs [1, 2, 3] []

def nextChunk : StreamingUpdate := ⟨[], [8, 9], 0, none⟩

theorem blockHashes_miss_item_and_keep_dropped_token :
    ((new twoItems).runTokenOps [.append 0 [7, 8]]).blockHashes.1 ≠
        ((new twoItems).runTokenOps [.append 0 [7, 8]]).scratchHashes 4 ∧
      ((new fullBlock).runTokenOps [.append 0 [7], .computed 3, .session nextChunk]).blockHashes.1 ≠
        ((new fullBlock).runTokenOps
          [.append 0 [7], .computed 3, .session nextChunk]).scratchHashes 4 := by
  decide +kernel

/-- One item, output tokens and an update that keeps the full block. -/
theorem blockHashes_describe_tokens_oneItem :
    ((new (hashedArgs [1, 2, 3, 4, 5] [oneToken "first" 4])).runTokenOps
        [.append 0 [6], .computed 5, .session nextChunk, .append 0 [7]]).blockHashes.1 =
      ((new (hashedArgs [1, 2, 3, 4, 5] [oneToken "first" 4])).runTokenOps
        [.append 0 [6], .computed 5, .session nextChunk, .append 0 [7]]).scratchHashes 4 :=
  blockHashes_describe_tokens (by decide +kernel) (by
    refine ⟨?_, trivial, ?_, ?_, trivial⟩ <;> decide +kernel) rfl

end Request
end TailBlend
