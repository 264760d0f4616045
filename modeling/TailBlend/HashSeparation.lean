import TailBlend.BlockHashes

/-! What two requests with the same block hash have in common. -/
namespace TailBlend
open ExtraKey List

namespace ExtraKey

/-- The flat tuple of extra keys: LoRA name, items, salt, embeddings. -/
def flat (lora : Option String) (items : List ExtraKey) (salt : Option String)
    (rows : Option (List EmbedRow)) : List ExtraKey :=
  (lora.map text).toList ++ items ++ (salt.map text).toList ++ (rows.map digest).toList

def isMm : ExtraKey → Bool
  | mm _ _ => true
  | _ => false

def text? : ExtraKey → Option String
  | text s => some s
  | _ => none

def digest? : ExtraKey → Option (List EmbedRow)
  | digest rows => some rows
  | _ => none

variable {lora lora' : Option String} {items items' : List ExtraKey} {salt salt' : Option String}
  {rows rows' : Option (List EmbedRow)}

theorem filter_flat (hitems : ∀ k ∈ items, k.isMm = true) :
    (flat lora items salt rows).filter isMm = items := by
  have hself : items.filter isMm = items := filter_eq_self.mpr hitems
  cases lora <;> cases salt <;> cases rows <;> simp [flat, isMm, hself]

theorem filterMap_flat {β : Type} {f : ExtraKey → Option β} (hf : ∀ k, k.isMm = true → f k = none)
    (hitems : ∀ k ∈ items, k.isMm = true) :
    (flat lora items salt rows).filterMap f = (flat lora [] salt rows).filterMap f := by
  have hnone : items.filterMap f = [] := filterMap_eq_nil_iff.mpr (fun k hk => hf k (hitems k hk))
  simp only [flat, filterMap_append, hnone, filterMap_nil]

theorem texts_flat (hitems : ∀ k ∈ items, k.isMm = true) :
    (flat lora items salt rows).filterMap text? = lora.toList ++ salt.toList := by
  rw [filterMap_flat (fun k hk => by cases k <;> simp_all [isMm, text?]) hitems]
  cases lora <;> cases salt <;> cases rows <;> rfl

theorem digests_flat (hitems : ∀ k ∈ items, k.isMm = true) :
    (flat lora items salt rows).filterMap digest? = rows.toList := by
  rw [filterMap_flat (fun k hk => by cases k <;> simp_all [isMm, digest?]) hitems]
  cases lora <;> cases salt <;> cases rows <;> rfl

theorem toList_inj {β : Type} {o o' : Option β} (h : o.toList = o'.toList) : o = o' := by
  cases o <;> cases o' <;> simp_all

/-- The LoRA name of one request is taken for the salt of the other. -/
def Mistaken (lora salt lora' salt' : Option String) : Prop :=
  lora.isSome ∧ salt = none ∧ lora' = none ∧ salt' = lora

theorem flat_eq_iff (hitems : ∀ k ∈ items, k.isMm = true) (hitems' : ∀ k ∈ items', k.isMm = true) :
    flat lora items salt rows = flat lora' items' salt' rows' ↔
      items = items' ∧ rows = rows' ∧ (lora = lora' ∧ salt = salt' ∨
        items = [] ∧ (Mistaken lora salt lora' salt' ∨ Mistaken lora' salt' lora salt)) := by
  constructor
  · intro h
    have hmm := congrArg (filter isMm) h
    rw [filter_flat hitems, filter_flat hitems'] at hmm
    have hrows := congrArg (filterMap digest?) h
    rw [digests_flat hitems, digests_flat hitems'] at hrows
    have htexts := congrArg (filterMap text?) h
    rw [texts_flat hitems, texts_flat hitems'] at htexts
    refine ⟨hmm, toList_inj hrows, ?_⟩
    subst hmm
    -- the head of the tuple is a name here and an item there, unless there are no items
    have hempty {name : String} {salt salt' : Option String} {rows rows' : Option (List EmbedRow)}
        (h : flat none items salt rows = flat (some name) items salt' rows') : items = [] := by
      cases items with
      | nil => rfl
      | cons k ks =>
        have hk := hitems k (mem_cons_self ..)
        simp [flat] at h
        rw [h.1] at hk
        cases hk
    cases lora with
    | none =>
      cases lora' with
      | none =>
        refine .inl ⟨rfl, toList_inj ?_⟩
        simpa using htexts
      | some name =>
        have hnil := hempty h
        cases salt <;> cases salt' <;> simp_all [Mistaken]
    | some name =>
      cases lora' with
      | none =>
        have hnil := hempty h.symm
        cases salt <;> cases salt' <;> simp_all [Mistaken]
      | some name' =>
        simp only [Option.toList_some, singleton_append, cons.injEq] at htexts
        exact .inl ⟨by rw [htexts.1], toList_inj htexts.2⟩
  · rintro ⟨rfl, rfl, ⟨rfl, rfl⟩ | ⟨rfl, hm | hm⟩⟩
    · rfl
    · obtain ⟨-, rfl, rfl, rfl⟩ := hm
      simp [flat]
    · obtain ⟨-, rfl, rfl, rfl⟩ := hm
      simp [flat]

end ExtraKey

namespace Request
variable {α : Type}

section chain
variable (req : Request α) (blockSize : Nat)

def loraName : Option String := req.loraRequest.map LoRARequest.loraName

def salt : Option String := req.cacheSalt.filter (fun salt => salt ≠ "")

def blockTokens (j : Nat) : List Int := (req.allTokenIds.drop (j * blockSize)).take blockSize

def blockRows (j : Nat) : Option (List EmbedRow) :=
  req.promptEmbeds.map (fun rows => (rows.drop (j * blockSize)).take blockSize)

def blockItems (j : Nat) : List (String × Nat) :=
  (req.mmFeatures.filter (fun f => f.Overlaps (j * blockSize) (j * blockSize + blockSize))).map
    (fun f => (f.identifier, f.offset))

def chainHash : Nat → BlockHash
  | 0 => .noneHash
  | n + 1 => .block (chainHash n) (req.blockTokens blockSize n)
      (req.blockKeys (n * blockSize) (n * blockSize + blockSize))

theorem getElem?_scratchBlocks {n i : Nat} (m : Nat) (hi : i < n) :
    (req.scratchBlocks blockSize n (m * blockSize) (req.chainHash blockSize m))[i]? =
      some (req.chainHash blockSize (m + i + 1)) := by
  induction n generalizing m i with
  | zero => omega
  | succ n ih =>
    have hnext : m * blockSize + blockSize = (m + 1) * blockSize := (Nat.succ_mul m blockSize).symm
    cases i with
    | zero => rfl
    | succ i =>
      have := ih (m + 1) (show i < n by omega)
      rw [← hnext] at this
      rw [show m + (i + 1) + 1 = m + 1 + i + 1 by omega, ← this]
      rfl

theorem blockKeys_eq_flat (j : Nat) :
    req.blockKeys (j * blockSize) (j * blockSize + blockSize) =
      flat req.loraName
        ((req.blockItems blockSize j).map (fun x => .mm x.1 ((x.2 : Int) - (j * blockSize : Nat))))
        (if j * blockSize = 0 then req.salt else none) (req.blockRows blockSize j) := by
  have hlora : req.loraKeys = (req.loraName.map text).toList := by
    unfold loraKeys loraName
    rw [Option.map_map]
    rfl
  have hitems : MmFeature.keysIn req.mmFeatures (j * blockSize) (j * blockSize + blockSize) =
      (req.blockItems blockSize j).map
        (fun x => .mm x.1 ((x.2 : Int) - (j * blockSize : Nat))) := by
    unfold MmFeature.keysIn blockItems
    rw [map_map]
    rfl
  have hsalt : req.saltKeys (j * blockSize) =
      ((if j * blockSize = 0 then req.salt else none).map text).toList := by
    unfold saltKeys salt
    split <;> rfl
  have hrows : req.promptEmbedsKeys (j * blockSize) (j * blockSize + blockSize) =
      ((req.blockRows blockSize j).map digest).toList := by
    unfold promptEmbedsKeys blockRows
    rw [Option.map_map, Nat.add_sub_cancel_left]
    rfl
  unfold blockKeys flat
  rw [hlora, hitems, hsalt, hrows]

end chain

variable {r r' : Request α} {blockSize : Nat}

theorem chainHash_eq_iff (n : Nat) :
    r.chainHash blockSize n = r'.chainHash blockSize n ↔
      ∀ j < n, r.blockTokens blockSize j = r'.blockTokens blockSize j ∧
        r.blockKeys (j * blockSize) (j * blockSize + blockSize) =
          r'.blockKeys (j * blockSize) (j * blockSize + blockSize) := by
  induction n with
  | zero => exact ⟨fun _ j hj => absurd hj (Nat.not_lt_zero j), fun _ => rfl⟩
  | succ n ih =>
    simp only [chainHash, BlockHash.block.injEq, ih]
    constructor
    · rintro ⟨hprev, htokens, hkeys⟩ j hj
      by_cases hjn : j < n
      · exact hprev j hjn
      · obtain rfl : j = n := by omega
        exact ⟨htokens, hkeys⟩
    · intro h
      exact ⟨fun j hj => h j (by omega), h n (by omega)⟩

theorem take_eq_of_blocks {β : Type} {l l' : List β} (n : Nat)
    (h : ∀ j < n, (l.drop (j * blockSize)).take blockSize =
      (l'.drop (j * blockSize)).take blockSize) :
    l.take (n * blockSize) = l'.take (n * blockSize) := by
  induction n with
  | zero => simp
  | succ n ih =>
    rw [Nat.succ_mul, take_add, take_add, ih (fun j hj => h j (by omega)), h n (by omega)]

structure SameContent (r r' : Request α) (blockSize n : Nat) : Prop where
  tokens : r.allTokenIds.take (n * blockSize) = r'.allTokenIds.take (n * blockSize)
  items : ∀ j < n, r.blockItems blockSize j = r'.blockItems blockSize j
  embeds : r.promptEmbeds.map (List.take (n * blockSize)) =
    r'.promptEmbeds.map (List.take (n * blockSize))

/-- A lone LoRA name is taken for a lone salt in a first block without items. -/
def NameForSalt (r r' : Request α) (blockSize : Nat) : Prop :=
  r.blockItems blockSize 0 = [] ∧
    (Mistaken r.loraName r.salt r'.loraName r'.salt ∨
      Mistaken r'.loraName r'.salt r.loraName r.salt)

theorem blockKeys_eq_iff (j : Nat) :
    r.blockKeys (j * blockSize) (j * blockSize + blockSize) =
        r'.blockKeys (j * blockSize) (j * blockSize + blockSize) ↔
      r.blockItems blockSize j = r'.blockItems blockSize j ∧
      r.blockRows blockSize j = r'.blockRows blockSize j ∧
      (r.loraName = r'.loraName ∧ (j * blockSize = 0 → r.salt = r'.salt) ∨
        j * blockSize = 0 ∧ r.blockItems blockSize j = [] ∧
          (Mistaken r.loraName r.salt r'.loraName r'.salt ∨
            Mistaken r'.loraName r'.salt r.loraName r.salt)) := by
  have hmm (x : Request α) : ∀ k ∈ (x.blockItems blockSize j).map
      (fun x => mm x.1 ((x.2 : Int) - (j * blockSize : Nat))), k.isMm = true := by
    intro k hk
    obtain ⟨y, -, rfl⟩ := mem_map.mp hk
    rfl
  have hinj : Function.Injective
      (fun x : String × Nat => mm x.1 ((x.2 : Int) - (j * blockSize : Nat))) := by
    intro x y hxy
    obtain ⟨h1, h2⟩ := mm.inj hxy
    exact Prod.ext h1 (by omega)
  rw [blockKeys_eq_flat, blockKeys_eq_flat, flat_eq_iff (hmm r) (hmm r'),
    map_inj_right (fun _ _ h => hinj h)]
  by_cases hzero : j * blockSize = 0
  · simp [hzero]
  simp only [hzero, if_false, false_and, or_false, false_implies]
  refine and_congr_right (fun _ => and_congr_right (fun _ => ?_))
  refine or_iff_left ?_
  rintro ⟨-, hm | hm⟩
  · obtain ⟨hsome, -, -, hnone⟩ := hm
    rw [← hnone] at hsome
    cases hsome
  · obtain ⟨hsome, -, -, hnone⟩ := hm
    rw [← hnone] at hsome
    cases hsome

theorem chainHash_agree_iff {n : Nat} (hpos : 0 < blockSize) (hn : 0 < n) :
    r.chainHash blockSize n = r'.chainHash blockSize n ↔
      SameContent r r' blockSize n ∧ (r.loraName = r'.loraName ∧ r.salt = r'.salt ∨
        n = 1 ∧ NameForSalt r r' blockSize) := by
  simp only [chainHash_eq_iff, blockKeys_eq_iff]
  have hzero (j : Nat) : j * blockSize = 0 ↔ j = 0 := by
    rw [Nat.mul_eq_zero]
    omega
  simp only [hzero]
  constructor
  · intro h
    refine ⟨⟨take_eq_of_blocks n (fun j hj => (h j hj).1), fun j hj => (h j hj).2.1, ?_⟩, ?_⟩
    · have hrows (j : Nat) (hj : j < n) := (h j hj).2.2.1
      unfold blockRows at hrows
      cases hr : r.promptEmbeds with
      | none =>
        have := hrows 0 hn
        cases hr' : r'.promptEmbeds <;> simp_all
      | some rows =>
        cases hr' : r'.promptEmbeds with
        | none =>
          have := hrows 0 hn
          simp [hr, hr'] at this
        | some rows' =>
          refine congrArg some (take_eq_of_blocks n (fun j hj => ?_))
          have := hrows j hj
          rw [hr, hr'] at this
          exact Option.some_inj.mp this
    · obtain ⟨-, -, -, hsame | ⟨-, hempty, hname⟩⟩ := h 0 hn
      · exact .inl ⟨hsame.1, hsame.2 rfl⟩
      -- a second block has the LoRA name again but no salt
      refine .inr ⟨?_, hempty, hname⟩
      by_contra hne
      obtain ⟨-, -, -, hsame | ⟨hone, -⟩⟩ := h 1 (by omega)
      · obtain hm | hm := hname
        · obtain ⟨hsome, -, hnone, -⟩ := hm
          rw [hsame.1, hnone] at hsome
          cases hsome
        · obtain ⟨hsome, -, hnone, -⟩ := hm
          rw [← hsame.1, hnone] at hsome
          cases hsome
      · omega
  · rintro ⟨hcontent, hident⟩ j hj
    have hle : j * blockSize + blockSize ≤ n * blockSize := by
      rw [← Nat.succ_mul]
      exact Nat.mul_le_mul_right blockSize hj
    refine ⟨block_eq_of_take hcontent.tokens hle, hcontent.items j hj, ?_, ?_⟩
    · have hembeds := hcontent.embeds
      unfold blockRows
      cases hr : r.promptEmbeds with
      | none =>
        cases hr' : r'.promptEmbeds with
        | none => rfl
        | some rows' => simp [hr, hr'] at hembeds
      | some rows =>
        cases hr' : r'.promptEmbeds with
        | none => simp [hr, hr'] at hembeds
        | some rows' =>
          rw [hr, hr'] at hembeds
          exact congrArg some (block_eq_of_take (Option.some_inj.mp hembeds) hle)
    · obtain ⟨hlora, hsalt⟩ | ⟨hone, hempty, hname⟩ := hident
      · exact .inl ⟨hlora, fun _ => hsalt⟩
      · obtain rfl : j = 0 := by omega
        exact .inr ⟨rfl, hempty, hname⟩

/-! The block hashes of two requests. -/

/-- What requests that share block `i` have to agree on. -/
structure MayShare (r r' : Request α) (blockSize i : Nat) : Prop where
  content : SameContent r r' blockSize (i + 1)
  lora : r.loraName = r'.loraName
  salt : r.cacheSalt = r'.cacheSalt

/-- The requests have the same content up to block `i`, and either the first block is all, where
the LoRA name of one stands for the salt of the other, or one has no salt and the other the
empty one. -/
def Confused (r r' : Request α) (blockSize i : Nat) : Prop :=
  SameContent r r' blockSize (i + 1) ∧
    (i = 0 ∧ NameForSalt r r' blockSize ∨
      r.loraName = r'.loraName ∧ r.salt = r'.salt ∧ r.cacheSalt ≠ r'.cacheSalt)

theorem getElem?_blockHashes {i : Nat} (hscratch : r.blockHashes.1 = r.scratchHashes blockSize)
    (hlt : i < r.blockHashes.1.length) :
    r.blockHashes.1[i]? = some (r.chainHash blockSize (i + 1)) ∧ 0 < blockSize := by
  rw [hscratch, scratchHashes, length_scratchBlocks] at hlt
  have := getElem?_scratchBlocks r blockSize 0 hlt
  rw [Nat.zero_mul, Nat.zero_add] at this
  refine ⟨by rw [hscratch]; exact this, ?_⟩
  rcases Nat.eq_zero_or_pos blockSize with hzero | hpos
  · rw [hzero] at hlt
    omega
  · exact hpos

/-- Requests that were built and updated safely share a block hash only with requests they may
share the block with, exactly unless they are confused. -/
theorem blockHashes_separate_requests {args args' : Args α} {ops ops' : List TokenOp}
    (hnew : (unhashed args).NewBlocksSeen) (hsafe : SafeOps (new args) ops)
    (hnew' : (unhashed args').NewBlocksSeen) (hsafe' : SafeOps (new args') ops')
    (hsize : args.hashBlockSize = some blockSize) (hsize' : args'.hashBlockSize = some blockSize)
    {i : Nat} (hr : (new args).runTokenOps ops = r) (hr' : (new args').runTokenOps ops' = r')
    (hi : i < r.blockHashes.1.length) (hi' : i < r'.blockHashes.1.length) :
    (r.blockHashes.1[i]? = r'.blockHashes.1[i]? → MayShare r r' blockSize i) ↔
      ¬Confused r r' blockSize i := by
  obtain ⟨hget, hpos⟩ := getElem?_blockHashes (hr ▸ scratchHashes_of_safe hnew hsafe hsize) hi
  obtain ⟨hget', -⟩ := getElem?_blockHashes (hr' ▸ scratchHashes_of_safe hnew' hsafe' hsize') hi'
  rw [hget, hget', Option.some_inj, chainHash_agree_iff hpos (Nat.succ_pos i)]
  constructor
  · rintro himp ⟨hcontent, ⟨rfl, hname⟩ | ⟨hlora, hsalt, hne⟩⟩
    · have hshare := himp ⟨hcontent, .inr ⟨rfl, hname⟩⟩
      obtain ⟨-, hm | hm⟩ := hname
      · obtain ⟨hsome, -, hnone, -⟩ := hm
        rw [hshare.lora, hnone] at hsome
        cases hsome
      · obtain ⟨hsome, -, hnone, -⟩ := hm
        rw [← hshare.lora, hnone] at hsome
        cases hsome
    · exact hne (himp ⟨hcontent, .inl ⟨hlora, hsalt⟩⟩).salt
  · rintro hnot ⟨hcontent, ⟨hlora, hsalt⟩ | ⟨hone, hname⟩⟩
    · refine ⟨hcontent, hlora, ?_⟩
      by_contra hne
      exact hnot ⟨hcontent, .inr ⟨hlora, hsalt, hne⟩⟩
    · exact absurd ⟨hcontent, .inl ⟨by omega, hname⟩⟩ hnot

/-! A LoRA request and a salted one share their first block; two requests with different images
share a block that their outputs complete. -/

def loraRequestNamed (name : String) : Request Nat :=
  new { hashedArgs [1, 2, 3, 4, 5] [] with loraRequest := some ⟨name, 1⟩ }

def saltedRequest (salt : String) : Request Nat :=
  new { hashedArgs [1, 2, 3, 4, 5] [] with cacheSalt := some salt }

/-- Two images in one block, the second of which is the same in all these requests. -/
def imageRequest (image : String) : Request Nat :=
  (new (hashedArgs [1, 2, 3, 4, 5, 6] [oneToken image 4, oneToken "second" 5])).runTokenOps
    [.append 0 [7, 8]]

theorem unlike_requests_share :
    ((loraRequestNamed "tenant").blockHashes.1[0]? = (saltedRequest "tenant").blockHashes.1[0]? ∧
      ((saltedRequest "tenant").blockHashes.1[0]?).isSome ∧
      ¬MayShare (loraRequestNamed "tenant") (saltedRequest "tenant") 4 0) ∧
    (imageRequest "a").blockHashes.1[1]? = (imageRequest "b").blockHashes.1[1]? ∧
      ((imageRequest "a").blockHashes.1[1]?).isSome ∧
      ¬MayShare (imageRequest "a") (imageRequest "b") 4 1 :=
  ⟨⟨by decide +kernel, by decide +kernel, fun h => absurd h.lora (by decide +kernel)⟩,
    by decide +kernel, by decide +kernel,
    fun h => absurd (h.content.items 1 Nat.one_lt_two) (by decide +kernel)⟩

/-- Two unsalted requests whose first block the output completes, one of them with an item behind
it. -/
theorem blockHashes_separate_plain :
    MayShare ((new (hashedArgs [1, 2, 3] [])).runTokenOps [.append 0 [4, 5]])
      ((new (hashedArgs [1, 2, 3] [oneToken "image" 4])).runTokenOps [.append 0 [4, 6]]) 4 0 := by
  refine (blockHashes_separate_requests (by decide +kernel) (by exact ⟨by decide +kernel, trivial⟩)
    (by decide +kernel) (by exact ⟨by decide +kernel, trivial⟩) rfl rfl rfl rfl
    (by decide +kernel) (by decide +kernel)).mpr ?_ (by decide +kernel)
  rintro ⟨-, ⟨-, -, hm | hm⟩ | ⟨-, -, hne⟩⟩
  · cases hm.1
  · cases hm.1
  · exact hne rfl

end Request
end TailBlend
