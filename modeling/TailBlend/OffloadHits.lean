import TailBlend.OffloadSplit
import TailBlend.OffloadConnector
import TailBlend.SlotAllocate
import Mathlib.Algebra.BigOperators.Group.List.Lemmas
import Mathlib.Algebra.Order.BigOperators.GroupWithZero.List
import Mathlib.Data.Fintype.EquivFin

/-! Hits of the offloading connector can be loaded, for every request, exactly when no group's block
size splits the window of another one. -/
namespace TailBlend
open KVCacheSpec List LookupInput

def KVCacheSpec.slidingWindow? (kv : KVCacheSpec) : Option Nat :=
  match kv.kind with
  | .slidingWindow w => some w
  | _ => none

variable {kv : KVCacheSpec}

theorem KVCacheSpec.slidingWindow?_pos {w : Nat} (h : kv.slidingWindow? = some w) : 0 < w := by
  have hvalid := kv.kind_valid
  unfold slidingWindow? at h
  split at h
  · rename_i w' hkind
    rw [hkind] at hvalid
    cases h
    exact hvalid
  · exact absurd h (by simp)

namespace OffloadingSpec

variable (o : OffloadingSpec)

def AttentionOnly : Prop :=
  ∀ kv ∈ o.kvCacheGroups, (∃ cls, kv.kind = .fullAttention cls) ∨ ∃ w, kv.kind = .slidingWindow w

def attentionConfig (kv : KVCacheSpec) (idx : Nat) : GroupOffloadConfig where
  groupIdx := idx
  gpuBlockSize := o.gpuBlockSize kv
  offloadedBlockSize := o.offloadedBlockSize kv
  hashBlockSizeFactor := o.offloadedBlockSize kv / o.hashBlockSize
  slidingWindowSizeInBlocks :=
    kv.slidingWindow?.map (fun w : Nat => (cdiv w (o.offloadedBlockSize kv)).toNat)

theorem groupConfig_eq (idx : Nat)
    (h : (∃ cls, kv.kind = .fullAttention cls) ∨ ∃ w, kv.kind = .slidingWindow w) :
    o.groupConfig kv idx = .ok (o.attentionConfig kv idx) := by
  have hvalid := kv.kind_valid
  unfold groupConfig attentionConfig getSlidingWindowSizeInBlocks slidingWindow?
  rcases h with ⟨cls, hkind⟩ | ⟨w, hkind⟩
  · rw [hkind]
    rfl
  · rw [hkind] at hvalid ⊢
    have hpos : w > 0 := hvalid
    simp [pyAssert, hpos, bind, Except.bind, pure, Except.pure]

theorem kvGroupConfigs_eq {o : OffloadingSpec} (ho : o.AttentionOnly) :
    o.kvGroupConfigs = .ok (o.kvCacheGroups.zipIdx.map (fun e => o.attentionConfig e.1 e.2)) := by
  exact mapM_eq_map _ fun e he => o.groupConfig_eq e.2 (ho e.1 (fst_mem_of_mem_zipIdx he))

theorem offloadedBlockSize_pos (kv : KVCacheSpec) : 0 < o.offloadedBlockSize kv :=
  Nat.mul_pos (Nat.mul_pos kv.blockSize_pos o.parallel_pos) o.factor_pos

def lookupInput {η : Type} (configs : List GroupOffloadConfig) (blockHashes : List η)
    (numTokens numComputedTokens : Nat) (lookup : η × Nat → Option Bool)
    (blocksBeingLoaded : Option (List (η × Nat))) : LookupInput (η × Nat) where
  groups := configs.map (fun g => (g, offloadKeys g blockHashes))
  numTokens := numTokens
  numComputedTokens := numComputedTokens
  lookup := lookup
  blocksBeingLoaded := blocksBeingLoaded

end OffloadingSpec

section keys
variable {η : Type}

theorem map_some_offloadKeys (g : GroupOffloadConfig) (blockHashes : List η) :
    (offloadKeys g blockHashes).map some =
      (range (blockHashes.length / g.hashBlockSizeFactor)).map (fun j =>
        blockHashes[g.hashBlockSizeFactor * (j + 1) - 1]?.map (fun h => (h, g.groupIdx))) := by
  have hsome : ∀ (l : List Nat) (f : Nat → Option (η × Nat)), (∀ j ∈ l, (f j).isSome) →
      (l.filterMap f).map some = l.map f := by
    intro l f hl
    induction l with
    | nil => rfl
    | cons j l ih =>
      obtain ⟨key, hkey⟩ := Option.isSome_iff_exists.mp (hl j mem_cons_self)
      rw [filterMap_cons_some hkey, map_cons, map_cons, hkey,
        ih fun k hk => hl k (mem_cons_of_mem j hk)]
  refine hsome _ _ fun j hj => ?_
  have hle : g.hashBlockSizeFactor * (j + 1) ≤ blockHashes.length :=
    (Nat.mul_le_mul_left _ (mem_range.mp hj)).trans (Nat.mul_div_le _ _)
  have hpos : 0 < g.hashBlockSizeFactor := by
    by_contra hzero
    obtain hzero : g.hashBlockSizeFactor = 0 := by omega
    rw [hzero] at hj
    exact absurd hj (by simp)
  have hmul : 0 < g.hashBlockSizeFactor * (j + 1) := Nat.mul_pos hpos (Nat.succ_pos j)
  rw [Option.isSome_map, getElem?_eq_getElem (by omega), Option.isSome_some]

theorem length_offloadKeys (g : GroupOffloadConfig) (blockHashes : List η) :
    (offloadKeys g blockHashes).length = blockHashes.length / g.hashBlockSizeFactor := by
  rw [← length_map some, map_some_offloadKeys, length_map, length_range]

theorem getElem?_offloadKeys (g : GroupOffloadConfig) {blockHashes : List η} {j : Nat}
    (hj : j < blockHashes.length / g.hashBlockSizeFactor) :
    (offloadKeys g blockHashes)[j]? =
      blockHashes[g.hashBlockSizeFactor * (j + 1) - 1]?.map (fun h => (h, g.groupIdx)) := by
  have hget := congrArg (fun l => l[j]?) (map_some_offloadKeys g blockHashes)
  simp only [getElem?_map, getElem?_range hj] at hget
  cases hkey : (offloadKeys g blockHashes)[j]? with
  | none => simp [hkey] at hget
  | some key => simpa [hkey] using hget

end keys

namespace OffloadingSpec
variable {η : Type} {o : OffloadingSpec} {blockHashes : List η} {numTokens numComputedTokens : Nat}
  {lookup : η × Nat → Option Bool} {loading : Option (List (η × Nat))}

def attentionInput (o : OffloadingSpec) (blockHashes : List η) (numTokens numComputedTokens : Nat)
    (lookup : η × Nat → Option Bool) (loading : Option (List (η × Nat))) :
    LookupInput (η × Nat) :=
  lookupInput (o.kvCacheGroups.zipIdx.map (fun e => o.attentionConfig e.1 e.2)) blockHashes
    numTokens numComputedTokens lookup loading

def window (o : OffloadingSpec) (i : Nat) : Option Nat :=
  o.kvCacheGroups[i]?.bind slidingWindow?

theorem getElem?_attentionInput (o : OffloadingSpec) {i : Nat} :
    (o.attentionInput blockHashes numTokens numComputedTokens lookup loading).groups[i]? =
      o.kvCacheGroups[i]?.map (fun kv =>
        (o.attentionConfig kv i, offloadKeys (o.attentionConfig kv i) blockHashes)) := by
  simp only [attentionInput, lookupInput, getElem?_map, getElem?_zipIdx, Option.map_map]
  congr 1
  funext kv
  simp

theorem groups_attentionInput {i : Nat} (hi : o.kvCacheGroups[i]? = some kv) :
    (o.attentionInput blockHashes numTokens numComputedTokens lookup loading).groups[i]? =
      some (o.attentionConfig kv i, offloadKeys (o.attentionConfig kv i) blockHashes) := by
  rw [getElem?_attentionInput, hi, Option.map_some]

theorem hashBlockSize_dvd (hkv : kv ∈ o.kvCacheGroups) :
    o.hashBlockSize ∣ o.offloadedBlockSize kv :=
  (o.hash_dvd kv hkv).mul_right _

theorem keyed (hlen : blockHashes.length = numTokens / o.hashBlockSize) :
    (o.attentionInput blockHashes numTokens numComputedTokens lookup loading).Keyed o.window := by
  intro i g keys hi
  rw [getElem?_attentionInput] at hi
  obtain ⟨kv, hkv, heq⟩ := Option.map_eq_some_iff.mp hi
  obtain ⟨rfl, rfl⟩ := Prod.mk.inj heq
  have hwindow : o.window i = kv.slidingWindow? := by rw [window, hkv, Option.bind_some]
  refine ⟨o.offloadedBlockSize_pos kv, rfl, ?_, by rw [hwindow]; rfl, ?_⟩
  · rw [length_offloadKeys, hlen, Nat.div_div_eq_div_mul]
    congr 1
    exact Nat.mul_div_cancel' (hashBlockSize_dvd (mem_of_getElem? hkv))
  · intro w hw
    rw [hwindow] at hw
    exact slidingWindow?_pos hw

/-- No multiple of a group's block size splits the window of a sliding-window group. -/
def Compatible (o : OffloadingSpec) : Prop :=
  ∀ kv ∈ o.kvCacheGroups, ∀ w, kv.slidingWindow? = some w → ∀ kv' ∈ o.kvCacheGroups,
    o.offloadedBlockSize kv ∣ o.offloadedBlockSize kv' ∨
      (w - 1) % o.offloadedBlockSize kv ≤
        Nat.gcd (o.offloadedBlockSize kv') (o.offloadedBlockSize kv)

theorem Compatible.input (ho : o.Compatible) :
    (o.attentionInput blockHashes numTokens numComputedTokens lookup loading).Compatible
      o.window := by
  intro i g keys w hi hw k g' keys' hk
  rw [getElem?_attentionInput] at hi hk
  obtain ⟨kv, hkv, heq⟩ := Option.map_eq_some_iff.mp hi
  obtain ⟨kv', hkv', heq'⟩ := Option.map_eq_some_iff.mp hk
  obtain ⟨rfl, rfl⟩ := Prod.mk.inj heq
  obtain ⟨rfl, rfl⟩ := Prod.mk.inj heq'
  rw [window, hkv] at hw
  exact ho kv (mem_of_getElem? hkv) w hw kv' (mem_of_getElem? hkv')

end OffloadingSpec

/-- The blocks `allocate_slots` gives a request in a group when `numCachedTokens` of its tokens are
computed or to be loaded: null blocks for whole blocks before the window, the local hits behind them,
then new blocks. -/
structure AllocatedBlocks (p : BlockPool) (kv : KVCacheSpec) (gpuBlockSize numComputedTokens
    numCachedTokens : Nat) (hits new blocks : List Nat) : Prop where
  eq : blocks =
    replicate (kv.getNumSkippedTokens numCachedTokens / gpuBlockSize).toNat 0 ++
      hits.drop (kv.getNumSkippedTokens numCachedTokens / gpuBlockSize).toNat ++ new
  hits_length : hits.length * gpuBlockSize = numComputedTokens
  hits_cached : ∀ b ∈ hits.drop (kv.getNumSkippedTokens numCachedTokens / gpuBlockSize).toNat,
    b = 0 ∨ (p.blockHash b).isSome
  new_private : ∀ b ∈ new, b ≠ 0 ∧ p.blockHash b = none
  enough : numCachedTokens ≤ blocks.length * gpuBlockSize

section calls
open BlockPool Manager Ownership
variable {α : Type} [DecidableEq α] {p p₁ p₂ : BlockPool} {new new₁ new₂ : List Nat}

structure TakesNew (p p' : BlockPool) (new : List Nat) : Prop where
  pool : PoolOK p'
  hash : HashOK p'
  kept : ∀ b, 0 < p.refCnt b → 0 < p'.refCnt b ∧ p'.blockHash b = p.blockHash b
  fresh : ∀ b ∈ new, b ≠ 0 ∧ 0 < p'.refCnt b ∧ p'.blockHash b = none

theorem TakesNew.nil (hp : PoolOK p) (hh : HashOK p) : TakesNew p p [] :=
  ⟨hp, hh, fun _ hb => ⟨hb, rfl⟩, fun _ hb => absurd hb (by simp)⟩

theorem TakesNew.getNewBlocks (hp : PoolOK p) (hh : HashOK p) {n : Int} (hn : 0 ≤ n)
    (he : p.getNewBlocks n = .ok (p₁, new)) : TakesNew p p₁ new := by
  have h := getNewBlocks_spec hp hh hn he
  refine ⟨h.poolOK, h.hashOK, fun b hb => ?_, fun b hb => ?_⟩
  · have hnot : b ∉ new := fun hmem => by
      have := (h.fresh b hmem).2.2
      omega
    rw [h.refCnt, h.hash, if_neg hnot]
    exact ⟨by omega, rfl⟩
  · obtain ⟨hpos, -, hzero⟩ := h.fresh b hb
    have hcount := count_pos_iff.mpr hb
    rw [h.refCnt, h.hash, if_pos hb]
    exact ⟨by omega, by omega, rfl⟩

theorem TakesNew.trans (h1 : TakesNew p p₁ new₁) (h2 : TakesNew p₁ p₂ new₂) :
    TakesNew p p₂ (new₁ ++ new₂) := by
  refine ⟨h2.pool, h2.hash, fun b hb => ?_, fun b hb => ?_⟩
  · obtain ⟨hb1, heq1⟩ := h1.kept b hb
    obtain ⟨hb2, heq2⟩ := h2.kept b hb1
    exact ⟨hb2, heq2.trans heq1⟩
  rcases mem_append.mp hb with hb | hb
  · obtain ⟨hne, hb1, hnone⟩ := h1.fresh b hb
    obtain ⟨hb2, heq⟩ := h2.kept b hb1
    exact ⟨hne, hb2, heq.trans hnone⟩
  · exact h2.fresh b hb

/-- What a new request gets in a group: its hits are added, then blocks up to `numTokens`. -/
theorem allocatedBlocks_of_calls {ms₁ ms₂ : List (Manager α)} {m m₁ m₂ : Manager α} {r : α}
    {hits ids : List Nat} {numComputedTokens numExternalTokens numTokens : Nat}
    (ho : Owned p (ms₁ ++ m :: ms₂)) (hh : GroupHits p m.groupId hits)
    (hlen : hits.length * m.blockSize = numComputedTokens)
    (he₁ : m.addComputedBlocks p r hits numComputedTokens numExternalTokens = .ok (p₁, m₁))
    (he₂ : m₁.baseAllocateNewBlocks p₁ r numTokens = .ok (p₂, m₂, ids))
    (hle : numComputedTokens + numExternalTokens ≤ numTokens) :
    ∃ new, AllocatedBlocks p₂ m.spec m.blockSize numComputedTokens
      (numComputedTokens + numExternalTokens) hits new (m₂.blocks r) := by
  set total := numComputedTokens + numExternalTokens with htotal
  have hcast : (numComputedTokens : Int) + numExternalTokens = (total : Nat) := by
    rw [Nat.cast_add]
  have hb : 0 < m.blockSize := m.spec.blockSize_pos
  unfold addComputedBlocks at he₁
  rw [seq_ok_iff] at he₁
  obtain ⟨-, -, he₁⟩ := he₁
  simp only [hcast, seq_ok_iff] at he₁
  obtain ⟨p₀, htouch, he₁⟩ := he₁
  have ht := touchComputed_spec ho (hh.drop _) htouch
  have hhash : HashOK p₀ := by
    refine ⟨?_, ?_, ?_, ?_⟩
    · rw [ht.cached, ht.hash]
      exact ho.hash.cached_iff
    · rw [ht.cached]
      exact ho.hash.cached_nodup
    · rw [ht.hash, ht.config.num]
      exact ho.hash.cached_lt
    · rw [ht.hash, ht.config.caching]
      exact ho.hash.off
  set l := m.computedList hits total with hl
  have hl_len : (l.length : Int) ≤ cdiv total m.blockSize := by
    have hskip := numSkippedBlocks_le_cdiv m (Int.natCast_nonneg total)
    have hhits : (hits.length : Int) ≤ cdiv total m.blockSize := by
      refine Int.le_of_sub_one_lt ((lt_cdiv_iff _ _ hb).mpr ?_)
      linarith [Int.sub_mul (hits.length : Int) 1 m.blockSize]
    rw [length_computedList]
    omega
  obtain ⟨new₁, hnew₁, hblocks₁, hspec₁⟩ : ∃ new₁, TakesNew p₀ p₁ new₁ ∧ m₁.blocks r = l ++ new₁ ∧
      m₁.spec = m.spec := by
    split_ifs at he₁ with hwindow
    · obtain ⟨⟨q, new₁⟩, hget, heq⟩ := (seq_ok_iff _ _ _).mp he₁
      cases heq
      refine ⟨new₁, .getNewBlocks ht.poolOK hhash (by omega) hget, ?_,
        by simp [setBlocks, withComputed]⟩
      simp [blocks, setBlocks]
    · cases he₁
      exact ⟨[], .nil ht.poolOK hhash, by simp [blocks, setBlocks, withComputed], rfl⟩
  have hsize : m₁.blockSize = m.blockSize := by rw [Manager.blockSize, hspec₁]; rfl
  obtain ⟨new₂, hnew₂, hblocks₂, henough⟩ : ∃ new₂, TakesNew p₁ p₂ new₂ ∧
      m₂.blocks r = l ++ new₁ ++ new₂ ∧ cdiv numTokens m.blockSize ≤ (m₂.blocks r).length := by
    unfold baseAllocateNewBlocks at he₂
    simp only [hblocks₁, hsize] at he₂
    split_ifs at he₂ with hneg
    · obtain ⟨rfl, heq⟩ := Prod.mk.inj (Except.ok.inj he₂)
      obtain ⟨rfl, -⟩ := Prod.mk.inj heq
      refine ⟨[], .nil hnew₁.pool hnew₁.hash, by rw [blocks_setBlocks, append_nil], ?_⟩
      rw [blocks_setBlocks]
      omega
    obtain ⟨⟨q, new₂⟩, hget, hret⟩ := (seq_ok_iff _ _ _).mp he₂
    have hnew := getNewBlocks_spec hnew₁.pool hnew₁.hash (by omega) hget
    obtain ⟨rfl, hm⟩ := Prod.mk.inj (Except.ok.inj hret)
    obtain ⟨rfl, -⟩ := Prod.mk.inj hm
    have hblocks : (((m₁.setBlocks r (l ++ new₁ ++ new₂)).noteNewBlocks new₂)).blocks r =
        l ++ new₁ ++ new₂ := by simp [blocks, setBlocks]
    refine ⟨new₂, .getNewBlocks hnew₁.pool hnew₁.hash (by omega) hget, hblocks, ?_⟩
    have := hnew.length
    rw [hblocks, length_append]
    omega
  have hnew := hnew₁.trans hnew₂
  refine ⟨new₁ ++ new₂, ⟨?_, hlen, fun b hmem => ?_, fun b hmem => ?_, ?_⟩⟩
  · rw [hblocks₂, append_assoc]
    rfl
  · by_cases hzero : b = 0
    · exact .inl hzero
    refine .inr ?_
    obtain ⟨key, hkey, -⟩ := hh.key b (mem_of_mem_drop hmem) hzero
    have hused : 0 < p₀.refCnt b := by
      have hnonneg := ho.pool.nonneg b hzero
      have hcount : 0 < (hits.drop (m.numSkippedBlocks total)).count b := count_pos_iff.mpr hmem
      rw [ht.refCnt]
      omega
    rw [(hnew.kept b hused).2, ht.hash, hkey]
    rfl
  · obtain ⟨hne, -, hnone⟩ := hnew.fresh b hmem
    exact ⟨hne, hnone⟩
  · rw [cdiv_le_iff _ _ hb] at henough
    omega

/-- Of the three computed tokens the window reads the last, whose block is cached. -/
theorem allocatedBlocks_of_calls_window : ∃ p blocks, (∃ new, AllocatedBlocks p
    (sampleSpec (.slidingWindow 2) 0 (by decide)) 1 3 3 [0, 0, 5] new blocks) ∧
      blocks = [0, 0, 5, 1, 2] := by
  have ho := (init_inv (α := Nat) sampleConfig).owned.owned
  have ho' : Owned (register _ ([], 2) 5) _ :=
    { ho with
      pool := ho.pool.of_eq ⟨rfl, rfl, rfl⟩ rfl rfl rfl
      hash := ho.hash.register _ rfl (by decide) rfl
      group := fun m hm b key hb hocc => by
        have hle := le_sum_of_mem (mem_map_of_mem (f := fun m => occ m b) hm)
        have hz : (0 : Int) = total _ b := ho.ref b hb
        unfold total at hz
        omega }
  have hhits : GroupHits ((sampleConfig.init : KVCacheManager Nat).pool.register ([], 2) 5) 2
      [0, 0, 5] := by
    refine ⟨fun b hb => ?_, fun b hmem hb => ?_⟩
    · have hfalse : (0 == b) = false := beq_false_of_ne hb.symm
      simpa [count_cons, hfalse] using count_le_length (a := b) (l := [5])
    · obtain rfl : b = 5 := by simpa [hb] using hmem
      exact ⟨_, rfl, rfl⟩
  exact ⟨_, _, @allocatedBlocks_of_calls Nat _ _ _ _ [_, _] [] _ _ _ 0 [0, 0, 5] _ 3 0 5
    ho' hhits rfl rfl rfl (by decide), rfl⟩

end calls

section load
variable {κ : Type} {p : BlockPool} {kv : KVCacheSpec} {gpuBlockSize numComputedTokens
  numCachedTokens : Nat} {hits new blocks : List Nat}

theorem AllocatedBlocks.numLocallyComputed
    (h : AllocatedBlocks p kv gpuBlockSize numComputedTokens numCachedTokens hits new blocks)
    (n : Nat) :
    numLocallyComputedGpuBlocks p (blocks.take n) =
      min (max (kv.getNumSkippedTokens numCachedTokens / gpuBlockSize).toNat hits.length) n := by
  set k := (kv.getNumSkippedTokens numCachedTokens / gpuBlockSize).toNat with hk
  set computed := replicate k 0 ++ hits.drop k with hcomputed
  have hlen : computed.length = max k hits.length := by
    rw [length_append, length_replicate, length_drop]
    omega
  have hold : ∀ b ∈ computed, (b ≠ 0 && (p.blockHash b).isNone) = false := by
    intro b hb
    rcases mem_append.mp hb with hb | hb
    · simp [eq_of_mem_replicate hb]
    · rcases h.hits_cached b hb with hzero | hsome
      · simp [hzero]
      · simp [Option.isNone_eq_false_iff.mpr hsome]
  have heq : blocks = computed ++ new := h.eq
  rw [← hlen, numLocallyComputedGpuBlocks]
  rcases le_total n computed.length with hle | hle
  · rw [heq, take_append_of_le_length hle, min_eq_right hle]
    rw [findIdx_eq_length_of_false fun b hb => hold b (mem_of_mem_take hb),
      length_take, min_eq_left hle]
  rw [min_eq_left hle, heq, take_append, take_of_length_le hle, findIdx_append,
    findIdx_eq_length_of_false hold]
  cases hnew : new.take (n - computed.length) with
  | nil => simp
  | cons b rest =>
    have hb : b ∈ new := mem_of_mem_take (hnew ▸ mem_cons_self)
    obtain ⟨hne, hnone⟩ := h.new_private b hb
    simp [findIdx_cons, hne, hnone]

theorem toNat_cdiv_le_iff {n b m : Nat} (hb : 0 < b) : (cdiv n b).toNat ≤ m ↔ n ≤ m * b := by
  rw [Int.toNat_le, cdiv_le_iff _ _ hb]
  exact_mod_cast Iff.rfl

theorem skipped_div (kv : KVCacheSpec) {n : Nat} (hn : 0 ≤ kv.getNumSkippedTokens n)
    (gpuBlockSize factor : Nat) :
    (kv.getNumSkippedTokens n / gpuBlockSize).toNat / factor =
      (kv.getNumSkippedTokens n).toNat / (gpuBlockSize * factor) := by
  obtain ⟨k, hk⟩ := Int.eq_ofNat_of_zero_le hn
  rw [hk, ← Int.natCast_ediv, Int.toNat_natCast, Int.toNat_natCast, Nat.div_div_eq_div_mul]

theorem cdiv_le_skipped (kv : KVCacheSpec) {w blockSize n : Nat} (hw : kv.slidingWindow? = some w)
    (hb : 0 < blockSize) (hreached : LookupInput.Reached w blockSize n) :
    cdiv n blockSize ≤ ((kv.getNumSkippedTokens n).toNat / blockSize : Nat) + cdiv w blockSize := by
  have hskip : kv.getNumSkippedTokens n = max 0 ((n : Int) - w + 1) := by
    unfold slidingWindow? at hw
    unfold getNumSkippedTokens
    split at hw
    · rename_i w' hkind
      cases hw
      rw [hkind]
    · exact absurd hw (by simp)
  have hhi : (kv.getNumSkippedTokens n).toNat <
      ((kv.getNumSkippedTokens n).toNat / blockSize + 1) * blockSize :=
    (Nat.div_lt_iff_lt_mul hb).mp (Nat.lt_succ_self _)
  exact le_block hb hreached hhi (by omega)

theorem loadGroup_spec {q : LookupInput κ} {i factor : Nat} {g : GroupOffloadConfig}
    {keys : List κ} (hg : q.GroupKeyed kv.slidingWindow? i g keys)
    (hsize : g.offloadedBlockSize = g.gpuBlockSize * factor)
    (hblocks : AllocatedBlocks p kv g.gpuBlockSize q.numComputedTokens numCachedTokens hits new
      blocks)
    (hskip : 0 ≤ kv.getNumSkippedTokens numCachedTokens)
    (hcomputed : q.numComputedTokens ≤ numCachedTokens)
    (hfits : (numCachedTokens : Int) ≤ (keys.length * g.offloadedBlockSize : Nat))
    (hconf : q.Confirmed kv.slidingWindow? g.offloadedBlockSize keys numCachedTokens)
    (hreached : ∀ w, kv.slidingWindow? = some w →
      LookupInput.Reached w g.offloadedBlockSize numCachedTokens) :
    ∃ load, loadGroup p factor q.numComputedTokens numCachedTokens g keys blocks = .ok load ∧
      ∀ key ∈ load.keysToLoad, q.lookup key = some true := by
  have hs := hg.pos
  have hgpu : 0 < g.gpuBlockSize := Nat.pos_of_mul_pos_right (hsize ▸ hs)
  set numGpu := (cdiv numCachedTokens g.gpuBlockSize).toNat with hnumGpu
  set num := (cdiv numCachedTokens g.offloadedBlockSize).toNat with hnum
  set k := (kv.getNumSkippedTokens numCachedTokens / g.gpuBlockSize).toNat with hk
  set first := max k hits.length with hfirst
  have hindex := hblocks.numLocallyComputed numGpu
  rw [← hfirst] at hindex
  have hlast (w : Nat) (hw : kv.slidingWindow? = some w) :
      num ≤ k / factor + (cdiv w g.offloadedBlockSize).toNat := by
    have hle := cdiv_le_skipped kv hw hs (hreached w hw)
    rw [hsize, ← skipped_div kv hskip, ← hsize] at hle
    generalize k / factor = d at hle ⊢
    omega
  have hcomputed_first : q.numComputedTokens ≤ first * g.gpuBlockSize := by
    rw [← hblocks.hits_length]
    exact Nat.mul_le_mul_right _ (le_max_right _ _)
  have henough : numGpu ≤ blocks.length := (toNat_cdiv_le_iff hgpu).mpr hblocks.enough
  have hlocal : q.numComputedTokens ≤ min first numGpu * g.gpuBlockSize := by
    rcases min_choice first numGpu with hmin | hmin
    · rw [hmin]
      exact hcomputed_first
    · rw [hmin]
      exact hcomputed.trans ((toNat_cdiv_le_iff hgpu).mp le_rfl)
  have hpending : ∀ w ∈ g.slidingWindowSizeInBlocks, numGpu - min first numGpu ≤ w * factor := by
    intro w hw
    rw [hg.blocks] at hw
    obtain ⟨w', hw', rfl⟩ := Option.map_eq_some_iff.mp hw
    have hnum_le : numCachedTokens ≤ num * (g.gpuBlockSize * factor) := by
      rw [← hsize]
      exact (toNat_cdiv_le_iff hs).mp le_rfl
    set blocks' := (cdiv (w' : Int) g.offloadedBlockSize).toNat with hblocks'
    have hle : numGpu ≤ k + blocks' * factor := by
      refine (toNat_cdiv_le_iff hgpu).mpr (hnum_le.trans ?_)
      calc num * (g.gpuBlockSize * factor)
          ≤ (k / factor + blocks') * (g.gpuBlockSize * factor) :=
            Nat.mul_le_mul_right _ (hlast w' hw')
        _ = (k / factor * factor + blocks' * factor) * g.gpuBlockSize := by ring
        _ ≤ (k + blocks' * factor) * g.gpuBlockSize :=
            Nat.mul_le_mul_right _ (Nat.add_le_add_right (Nat.div_mul_le_self k factor) _)
    omega
  have hkeys : num ≤ keys.length := (toNat_cdiv_le_iff hs).mpr (by exact_mod_cast hfits)
  unfold loadGroup
  simp only [← hnumGpu, ← hnum, hindex, pyAssert, if_pos henough, if_pos hlocal, if_pos hpending,
    if_pos hkeys, bind]
  refine ⟨_, rfl, fun key hkey => ?_⟩
  split_ifs at hkey with hzero
  · exact absurd hkey (by simp)
  have hmin : min first numGpu = first := by omega
  rw [hmin] at hkey
  obtain ⟨j, hj⟩ := mem_iff_getElem?.mp hkey
  rw [getElem?_drop, getElem?_take] at hj
  split_ifs at hj with hlt
  · have hstart : q.numComputedTokens / g.offloadedBlockSize ≤ first / factor + j := by
      rw [hsize, ← Nat.div_div_eq_div_mul]
      exact (Nat.div_le_div_right (Nat.div_le_of_le_mul (by rwa [Nat.mul_comm]))).trans
        (Nat.le_add_right _ _)
    have hmono : k / factor ≤ first / factor := Nat.div_le_div_right (le_max_left _ _)
    generalize first / factor = d at hj hlt hstart hmono
    obtain ⟨key', hkey', hready⟩ := hconf (d + j) hstart (by omega) fun w hw => by
      have hle := hlast w hw
      omega
    rw [hj] at hkey'
    obtain rfl := Option.some.inj hkey'
    exact hready

end load

namespace OffloadingConnectorScheduler
variable {ρ κ σ μ η : Type} [DecidableEq ρ]

/-- The connector was built from the specification and has looked the request up, and no transfer
of the request is pending. -/
structure Serves (c : OffloadingConnectorScheduler ρ (η × Nat) σ μ) (o : OffloadingSpec)
    (blockHashes : List η) (numComputedTokens : Nat) (requestId : ρ)
    (st : RequestOffloadState (η × Nat)) : Prop where
  configs : o.kvGroupConfigs = .ok c.config.kvGroupConfigs
  factor : c.config.blockSizeFactor = o.blockSizeFactor
  status : c.reqStatus.get? requestId = some st
  keys : st.groupStates.map RequestGroupState.offloadKeys =
    c.config.kvGroupConfigs.map (fun g => offloadKeys g blockHashes)
  computed : st.numLocallyComputedTokens = numComputedTokens
  idle : st.transferJobs = []

/-- `update_state_after_alloc` passes its assertions and loads only keys that were answered
`True`. -/
def CanLoad (c : OffloadingConnectorScheduler ρ κ σ μ) (p : BlockPool) (requestId : ρ)
    (st : RequestOffloadState κ) (blocks : List (List Nat)) (numExternalTokens : Nat)
    (lookup : κ → Option Bool) : Prop :=
  ∃ loads, c.loadGroups p st blocks numExternalTokens = .ok loads ∧
    (∀ load ∈ loads, ∀ key ∈ load.keysToLoad, lookup key = some true) ∧
    ∀ (ops : OffloadingManager κ σ μ) (out : σ × μ),
      ops.prepareLoad c.manager (loads.flatMap GroupLoad.keysToLoad) = .ok out →
        ∃ c', c.updateStateAfterAlloc ops p requestId blocks numExternalTokens = .ok c'

theorem updateStateAfterAlloc_ok {ops : OffloadingManager κ σ μ}
    {c : OffloadingConnectorScheduler ρ κ σ μ} {p : BlockPool} {requestId : ρ}
    {st : RequestOffloadState κ} {blocks : List (List Nat)} {numExternalTokens : Nat}
    {loads : List (GroupLoad κ)} {out : σ × μ} (hst : c.reqStatus.get? requestId = some st)
    (hidle : st.transferJobs = []) (hloads : c.loadGroups p st blocks numExternalTokens = .ok loads)
    (hout : ops.prepareLoad c.manager (loads.flatMap GroupLoad.keysToLoad) = .ok out) :
    ∃ c', c.updateStateAfterAlloc ops p requestId blocks numExternalTokens = .ok c' := by
  unfold updateStateAfterAlloc
  by_cases hzero : numExternalTokens = 0
  · exact ⟨c, if_pos hzero⟩
  · rw [if_neg hzero, hst]
    simp only [hloads, hout, hidle, bind, Except.bind]
    exact ⟨_, rfl⟩

end OffloadingConnectorScheduler

namespace OffloadingSpec
variable {η : Type}

/-- The lookup of a request ends; if it finds `h > 0` tokens, every needed block was answered
`True` and the tokens can be loaded into the blocks that `allocate_slots` gives. -/
def SoundLookup [DecidableEq η] (o : OffloadingSpec) (blockHashes : List η)
    (q : LookupInput (η × Nat)) : Prop :=
  ∀ fuel, q.numTokens < fuel → ∃ r, q.run fuel = .ok r ∧ r ≠ .outOfFuel ∧
    ∀ h : Nat, r = .hit h → 0 < h →
      (∀ (i : Nat) (kv : KVCacheSpec), o.kvCacheGroups[i]? = some kv →
        ∃ keys, q.groups[i]?.map Prod.snd = some keys ∧
          q.Loadable kv.slidingWindow? (o.offloadedBlockSize kv) keys (q.numComputedTokens + h)) ∧
      ∀ (ρ σ μ : Type) [DecidableEq ρ] (c : OffloadingConnectorScheduler ρ (η × Nat) σ μ)
        (p : BlockPool) (requestId : ρ) (st : RequestOffloadState (η × Nat))
        (blocks : List (List Nat)),
        c.Serves o blockHashes q.numComputedTokens requestId st →
        (∀ (i : Nat) (kv : KVCacheSpec) (groupBlocks : List Nat), o.kvCacheGroups[i]? = some kv →
          blocks[i]? = some groupBlocks → ∃ hits new, AllocatedBlocks p kv (o.gpuBlockSize kv)
            q.numComputedTokens (q.numComputedTokens + h) hits new groupBlocks) →
        c.CanLoad p requestId st blocks h q.lookup

theorem getNumSkippedTokens_nonneg {o : OffloadingSpec} (ho : o.AttentionOnly)
    (hkv : kv ∈ o.kvCacheGroups) (n : Int) : 0 ≤ kv.getNumSkippedTokens n := by
  unfold getNumSkippedTokens
  rcases ho kv hkv with ⟨cls, hkind⟩ | ⟨w, hkind⟩
  · rw [hkind]
  · rw [hkind]
    exact le_max_left _ _

section sound
variable {o : OffloadingSpec} {blockHashes : List η} {numTokens numComputedTokens : Nat}
  {lookup : η × Nat → Option Bool} {loading : Option (List (η × Nat))}

theorem window_eq {i : Nat} (hi : o.kvCacheGroups[i]? = some kv) :
    o.window i = kv.slidingWindow? := by
  rw [window, hi, Option.bind_some]

theorem canLoad (ho : o.AttentionOnly) (hlen : blockHashes.length = numTokens / o.hashBlockSize)
    {h : Nat} (hhit : (o.attentionInput blockHashes numTokens numComputedTokens lookup
      loading).HitSpec o.window (numComputedTokens + h : Nat))
    (hreached : ∀ (i : Nat) (kv : KVCacheSpec), o.kvCacheGroups[i]? = some kv → ∀ w,
      kv.slidingWindow? = some w →
        LookupInput.Reached w (o.offloadedBlockSize kv) (numComputedTokens + h : Nat))
    {ρ σ μ : Type} [DecidableEq ρ] {c : OffloadingConnectorScheduler ρ (η × Nat) σ μ}
    {p : BlockPool} {requestId : ρ} {st : RequestOffloadState (η × Nat)} {blocks : List (List Nat)}
    (hserves : c.Serves o blockHashes numComputedTokens requestId st)
    (hblocks : ∀ (i : Nat) (kv : KVCacheSpec) (groupBlocks : List Nat),
      o.kvCacheGroups[i]? = some kv → blocks[i]? = some groupBlocks → ∃ hits new,
        AllocatedBlocks p kv (o.gpuBlockSize kv) numComputedTokens (numComputedTokens + h) hits new
          groupBlocks) :
    c.CanLoad p requestId st blocks h lookup := by
  set q := o.attentionInput blockHashes numTokens numComputedTokens lookup loading
  have hq : q.Keyed o.window := keyed hlen
  have hconfigs : c.config.kvGroupConfigs =
      o.kvCacheGroups.zipIdx.map (fun e => o.attentionConfig e.1 e.2) :=
    Except.ok.inj (hserves.configs.symm.trans (kvGroupConfigs_eq ho))
  have hload : ∀ x ∈ c.config.kvGroupConfigs.zip (st.groupStates.zip blocks), ∃ load,
      loadGroup p c.config.blockSizeFactor st.numLocallyComputedTokens
        (st.numLocallyComputedTokens + h) x.1 x.2.1.offloadKeys x.2.2 = .ok load ∧
      ∀ key ∈ load.keysToLoad, lookup key = some true := by
    rintro ⟨g, group, groupBlocks⟩ hx
    obtain ⟨i, hi⟩ := mem_iff_getElem?.mp hx
    obtain ⟨hg, hrest⟩ := getElem?_zip_eq_some.mp hi
    obtain ⟨hgroup, hgb⟩ := getElem?_zip_eq_some.mp hrest
    rw [hconfigs] at hg
    obtain ⟨kv, hkv, rfl⟩ : ∃ kv, o.kvCacheGroups[i]? = some kv ∧ o.attentionConfig kv i = g := by
      cases hkv : o.kvCacheGroups[i]? with
      | none => simp [hkv] at hg
      | some kv => exact ⟨kv, rfl, by simpa [hkv] using hg⟩
    have hkeys : group.offloadKeys = offloadKeys (o.attentionConfig kv i) blockHashes := by
      have hget := congrArg (fun l => l[i]?) hserves.keys
      simp only [getElem?_map, hgroup, hconfigs, getElem?_zipIdx, hkv, Option.map_some,
        Nat.zero_add, Option.some.injEq] at hget
      exact hget
    obtain ⟨hits, new, halloc⟩ := hblocks i kv groupBlocks hkv hgb
    have hkeyed : q.groups[i]? = some (o.attentionConfig kv i,
        offloadKeys (o.attentionConfig kv i) blockHashes) := groups_attentionInput hkv
    have hgk := hq i _ _ hkeyed
    have hconf := hhit.confirmed i _ _ hkeyed
    rw [window_eq hkv] at hgk hconf
    simp only [hkeys, hserves.computed, hserves.factor]
    exact loadGroup_spec hgk rfl halloc
      (getNumSkippedTokens_nonneg ho (mem_of_getElem? hkv) _) (Nat.le_add_right _ _)
      (hhit.fits i _ _ hkeyed) hconf (hreached i kv hkv)
  obtain ⟨loads, hloads, hready⟩ := mapM_forall hload
  exact ⟨loads, hloads, hready, fun ops out hout =>
    OffloadingConnectorScheduler.updateStateAfterAlloc_ok hserves.status hserves.idle hloads hout⟩

theorem Compatible.soundLookup [DecidableEq η] (hc : o.Compatible) (ho : o.AttentionOnly)
    (hlen : blockHashes.length = numTokens / o.hashBlockSize) :
    o.SoundLookup blockHashes
      (o.attentionInput blockHashes numTokens numComputedTokens lookup loading) := by
  set q := o.attentionInput blockHashes numTokens numComputedTokens lookup loading with hqdef
  intro fuel hfuel
  have hq : q.Keyed o.window := keyed hlen
  obtain ⟨r, hr, hne, hspec⟩ := run_spec hq hfuel
  refine ⟨r, hr, hne, fun h hh hpos => ?_⟩
  have hhit := hspec h hh (by exact_mod_cast hpos)
  have hreached : ∀ (i : Nat) (kv : KVCacheSpec), o.kvCacheGroups[i]? = some kv → ∀ w,
      kv.slidingWindow? = some w →
        Reached w (o.offloadedBlockSize kv) (q.numComputedTokens + h) := by
    intro i kv hi w hw
    exact hhit.reached hq hc.input (groups_attentionInput hi) ((window_eq hi).trans hw)
  refine ⟨fun i kv hi => ?_, fun ρ σ μ _ c p requestId st blocks hserves hblocks => ?_⟩
  · have hgroup : q.groups[i]? = some (o.attentionConfig kv i,
        offloadKeys (o.attentionConfig kv i) blockHashes) := groups_attentionInput hi
    have hconf := hhit.confirmed i _ _ hgroup
    rw [window_eq hi] at hconf
    exact ⟨_, by rw [hgroup]; rfl, hconf.loadable (o.offloadedBlockSize_pos kv) (hreached i kv hi)⟩
  · exact canLoad ho hlen (by exact_mod_cast hhit) (by exact_mod_cast hreached) hserves hblocks

end sound

section split
variable {o : OffloadingSpec}

theorem hashBlockSizeFactor_pos (hkv : kv ∈ o.kvCacheGroups) :
    0 < o.offloadedBlockSize kv / o.hashBlockSize := by
  have hpos := o.offloadedBlockSize_pos kv
  exact Nat.div_pos (Nat.le_of_dvd hpos (hashBlockSize_dvd hkv))
    (Nat.pos_of_dvd_of_pos (hashBlockSize_dvd hkv) hpos)

theorem exists_lookup (o : OffloadingSpec) (hash : ℕ ↪ η) (answer : Nat → Nat → Bool) :
    ∃ lookup : η × Nat → Option Bool, ∀ (n i : Nat) (kv : KVCacheSpec),
      o.kvCacheGroups[i]? = some kv → ∀ (j : Nat) (key : η × Nat),
        (offloadKeys (o.attentionConfig kv i) ((range n).map hash))[j]? = some key →
          lookup key = some (answer i j) := by
  classical
  refine ⟨fun key => some (decide (∃ kv j, o.kvCacheGroups[key.2]? = some kv ∧
    key.1 = hash (o.offloadedBlockSize kv / o.hashBlockSize * (j + 1) - 1) ∧
      answer key.2 j = true)), fun n i kv hkv j key hkey => ?_⟩
  have hfactor := hashBlockSizeFactor_pos (mem_of_getElem? hkv)
  have hj : j < ((range n).map hash).length /
      (o.attentionConfig kv i).hashBlockSizeFactor := by
    rw [← length_offloadKeys]
    exact (List.getElem?_eq_some_iff.mp hkey).1
  rw [getElem?_offloadKeys _ hj] at hkey
  obtain ⟨h, hh, rfl⟩ := Option.map_eq_some_iff.mp hkey
  rw [getElem?_map] at hh
  obtain ⟨k, hk, rfl⟩ := Option.map_eq_some_iff.mp hh
  obtain rfl : (o.attentionConfig kv i).hashBlockSizeFactor * (j + 1) - 1 = k := by
    have hlt := (List.getElem?_eq_some_iff.mp hk).1
    rw [List.getElem?_range (by simpa using hlt)] at hk
    exact Option.some.inj hk
  simp only [attentionConfig, Option.some.injEq]
  refine Bool.eq_iff_iff.mpr ((decide_eq_true_iff).trans ⟨?_, fun ha => ⟨kv, j, hkv, rfl, ha⟩⟩)
  rintro ⟨kv', j', hkv', heq, ha⟩
  obtain rfl := Option.some.inj (hkv.symm.trans hkv')
  have hmul := hash.injective heq
  have hlo := Nat.mul_pos hfactor (Nat.succ_pos j)
  have hlo' := Nat.mul_pos hfactor (Nat.succ_pos j')
  have hcancel : j + 1 = j' + 1 := Nat.eq_of_mul_eq_mul_left hfactor (by
    simp only [Nat.succ_eq_add_one] at hlo hlo'
    omega)
  obtain rfl : j = j' := by omega
  exact ha

theorem exists_multiple {b s : Nat} (hb : 0 < b) (hs : Nat.gcd b s < s) (bound : Nat) :
    ∃ m, b * m % s = Nat.gcd b s ∧ s * bound ≤ b * m := by
  obtain ⟨m, -, hm⟩ := Nat.exists_mul_mod_eq_gcd hs
  refine ⟨m + s * bound, ?_, ?_⟩
  · rw [Nat.mul_add, show b * (s * bound) = s * (b * bound) by ring, Nat.add_mul_mod_self_left]
    exact hm
  · calc s * bound ≤ b * (s * bound) := Nat.le_mul_of_pos_left _ hb
      _ ≤ b * (m + s * bound) := Nat.mul_le_mul_left _ (Nat.le_add_left _ _)

theorem exists_unsound [DecidableEq η] [Infinite η] (hc : ¬ o.Compatible) :
    ∃ (blockHashes : List η) (numTokens : Nat) (lookup : η × Nat → Option Bool),
      blockHashes.length = numTokens / o.hashBlockSize ∧
        ¬ o.SoundLookup blockHashes (o.attentionInput blockHashes numTokens 0 lookup none) := by
  unfold Compatible at hc
  push Not at hc
  obtain ⟨kv, hkv, w, hw, kv', hkv', hdvd, hgcd⟩ := hc
  obtain ⟨i, hi⟩ := mem_iff_getElem?.mp hkv
  obtain ⟨i', hi'⟩ := mem_iff_getElem?.mp hkv'
  set s := o.offloadedBlockSize kv with hs
  set b := o.offloadedBlockSize kv' with hb
  have hs_pos : 0 < s := o.offloadedBlockSize_pos kv
  have hb_pos : 0 < b := o.offloadedBlockSize_pos kv'
  have hw_pos : 0 < w := slidingWindow?_pos hw
  have hrest := Nat.mod_lt (w - 1) hs_pos
  set sizes := o.kvCacheGroups.map o.offloadedBlockSize with hsizes
  obtain ⟨m, hmod, hlarge⟩ := exists_multiple hb_pos (hgcd.trans hrest) (sizes.sum + w)
  set length := b * m with hlength
  set numTokens := (length + 1) * sizes.prod with hnum
  have hsize : ∀ kv ∈ o.kvCacheGroups, o.offloadedBlockSize kv ≤ length ∧
      o.offloadedBlockSize kv ∣ numTokens := by
    intro kv'' hkv''
    have hmem : o.offloadedBlockSize kv'' ∈ sizes := mem_map_of_mem hkv''
    refine ⟨?_, (dvd_prod hmem).mul_left _⟩
    calc o.offloadedBlockSize kv'' ≤ sizes.sum := le_sum_of_mem hmem
      _ ≤ sizes.sum + w := Nat.le_add_right _ _
      _ ≤ s * (sizes.sum + w) := Nat.le_mul_of_pos_left _ hs_pos
      _ ≤ length := hlarge
  have hprod : 0 < sizes.prod := by
    refine prod_pos fun x hx => ?_
    obtain ⟨kv'', -, rfl⟩ := mem_map.mp hx
    exact o.offloadedBlockSize_pos kv''
  have hlt : length < numTokens := Nat.lt_of_lt_of_le (Nat.lt_succ_self _)
    (Nat.le_mul_of_pos_right _ hprod)
  have hne : i ≠ i' := by
    rintro rfl
    obtain rfl := Option.some.inj (hi.symm.trans hi')
    exact hdvd dvd_rfl
  -- the answers that leave out the block with the first position of the window
  obtain ⟨lookup, hlookup⟩ := o.exists_lookup (Infinite.natEmbedding η) fun k j =>
    if k = i then decide (cdiv length s ≤ j + cdiv w s ∧ (j : Int) < cdiv length s)
    else if k = i' then decide (j < m) else true
  set hashes := (range (numTokens / o.hashBlockSize)).map (Infinite.natEmbedding η) with hhashes
  have hlen : hashes.length = numTokens / o.hashBlockSize := by
    rw [length_map, length_range]
  refine ⟨hashes, numTokens, lookup, hlen, ?_⟩
  set q := o.attentionInput hashes numTokens 0 lookup none with hq
  have hkeyed : q.Keyed o.window := keyed hlen
  have hgroups {k : Nat} {kv : KVCacheSpec} (hk : o.kvCacheGroups[k]? = some kv) :
      q.groups[k]? = some (o.attentionConfig kv k, offloadKeys (o.attentionConfig kv k) hashes) :=
    groups_attentionInput hk
  have hanswers : q.SplitAnswers i i' w length m (o.attentionConfig kv i)
      (o.attentionConfig kv' i') (offloadKeys (o.attentionConfig kv i) hashes)
      (offloadKeys (o.attentionConfig kv' i') hashes) := by
    refine ⟨hne, rfl, hgroups hi, hgroups hi', fun j key hkey => ?_, fun j key hkey => ?_, ?_⟩
    · exact (hlookup _ i kv hi j key hkey).trans (by rw [if_pos rfl]; rfl)
    · exact (hlookup _ i' kv' hi' j key hkey).trans (by rw [if_neg hne.symm, if_pos rfl])
    intro k g keys hk hki hki' key hmem
    rw [getElem?_attentionInput] at hk
    obtain ⟨kv'', hkv'', heq⟩ := Option.map_eq_some_iff.mp hk
    obtain ⟨rfl, rfl⟩ := Prod.mk.inj heq
    obtain ⟨j, hj⟩ := mem_iff_getElem?.mp hmem
    exact (hlookup _ k kv'' hkv'' j key hj).trans (by rw [if_neg hki, if_neg hki'])
  have hample : q.Ample length i' := by
    refine hanswers.ample hkeyed ((window_eq hi).trans hw) rfl fun k g keys hk => ?_
    rw [getElem?_attentionInput] at hk
    obtain ⟨kv'', hkv'', heq⟩ := Option.map_eq_some_iff.mp hk
    obtain ⟨rfl, -⟩ := Prod.mk.inj heq
    exact hsize kv'' (mem_of_getElem? hkv'')
  have hlast : i' ∈ q.order.lookupGroups := (mem_lookupGroups hkeyed).mpr ⟨_, _, hgroups hi'⟩
  have hrun := run_ample hkeyed hample (by exact_mod_cast hlt) hlast rfl
    (Nat.lt_succ_self numTokens)
  intro hsound
  obtain ⟨r, hr, -, hspec⟩ := hsound (numTokens + 1) (Nat.lt_succ_self numTokens)
  obtain rfl : .hit length = r := Except.ok.inj (hrun.symm.trans hr)
  have hgcd_pos : 0 < Nat.gcd b s := Nat.gcd_pos_of_pos_left _ hb_pos
  have hlength_pos : 0 < length := by
    by_contra hzero
    obtain hzero : length = 0 := by omega
    rw [hzero, Nat.zero_mod] at hmod
    omega
  obtain ⟨keys, hkeys, hload⟩ := (hspec length rfl hlength_pos).1 i kv hi
  obtain rfl : offloadKeys (o.attentionConfig kv i) hashes = keys := by
    rw [hgroups hi] at hkeys
    simpa using hkeys
  have hbound : (w - 1) / s < length / s := by
    refine Nat.lt_of_lt_of_le ?_ ((Nat.le_div_iff_mul_le hs_pos).mpr (by
      rw [Nat.mul_comm]
      exact hlarge))
    have := Nat.div_le_self (w - 1) s
    omega
  refine hanswers.not_loadable hs_pos hw_pos rfl ?_ ?_ hbound ?_
  · exact hmod.trans_ne hgcd_pos.ne'
  · exact hmod.trans_lt hgcd
  · rw [hw, show (q.numComputedTokens : Int) + length = length from Int.zero_add _] at hload
    exact hload

end split

/-- Full attention with blocks of `blockSize` tokens, and a window of four tokens in blocks of
four. -/
def windowSpec (blockSize : Nat) (hpos : 0 < blockSize) (hdvd : 2 ∣ blockSize) : OffloadingSpec where
  kvCacheGroups := [
    ⟨.fullAttention .full, blockSize, ⟨1, 1, 0, none, 0⟩, hpos, trivial⟩,
    ⟨.slidingWindow 4, 4, ⟨1, 1, 0, none, 0⟩, by decide, by decide⟩]
  contextParallelFactor := 1
  hashBlockSize := 2
  blockSizeFactor := 1
  parallel_pos := Nat.one_pos
  factor_pos := Nat.one_pos
  hash_dvd := by simpa using hdvd

theorem windowSpec_attentionOnly {blockSize : Nat} (hpos : 0 < blockSize) (hdvd : 2 ∣ blockSize) :
    (windowSpec blockSize hpos hdvd).AttentionOnly := by
  simp [windowSpec, AttentionOnly]

/-- Six tokens of the prompt, with only the second block of the window group. -/
def splitAnswers (key : Nat × Nat) : Option Bool :=
  some (if key.2 = 0 then key.1 < 3 else key.1 = 3)

end OffloadingSpec

end TailBlend
