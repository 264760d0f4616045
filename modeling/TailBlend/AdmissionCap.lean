import TailBlend.SteadyPool

/-! What a request really holds in a group with a sliding window or chunks, against the
admission cap of the group. -/
namespace TailBlend
open List

namespace KVCacheSpec

/-- The largest step fits into the blocks that the cap grants behind the window: the lookahead
tokens fit into what is left of the last block and, for chunks that do not start at a block
boundary, so do the tokens before the chunk in its first block; or no request is that long. -/
def WindowFits (spec : KVCacheSpec) (maxNumBatchedTokens maxModelLen : Int)
    (numLookaheadTokens : Nat) : Prop :=
  match spec.kind with
  | .slidingWindow w =>
    let n := w - 1 + maxNumBatchedTokens
    n + numLookaheadTokens ≤ cdiv n spec.blockSize * spec.blockSize + 1 ∨
      maxModelLen ≤ (cdiv n spec.blockSize + 1) * spec.blockSize
  | .chunkedLocal c =>
    let n := c + maxNumBatchedTokens
    ((spec.blockSize - Nat.gcd c spec.blockSize : Nat) : Int) + n - 1 + numLookaheadTokens ≤
        cdiv n spec.blockSize * spec.blockSize ∨
      maxModelLen ≤ cdiv n spec.blockSize * spec.blockSize
  | _ => True

instance (spec : KVCacheSpec) (b m : Int) (k : Nat) : Decidable (spec.WindowFits b m k) :=
  match spec with
  | ⟨.slidingWindow _, _, _, _, _⟩ | ⟨.chunkedLocal _, _, _, _, _⟩ =>
    inferInstanceAs (Decidable (_ ∨ _))
  | ⟨.fullAttention _, _, _, _, _⟩ | ⟨.mamba _ _, _, _, _, _⟩ | ⟨.crossAttention, _, _, _, _⟩ =>
    inferInstanceAs (Decidable True)

variable {spec : KVCacheSpec} {b m cap : Int}

theorem recycles_of_cap (h : spec.maxAdmissionBlocksPerRequest b m = some cap) :
    spec.recycles = true := by
  unfold maxAdmissionBlocksPerRequest at h
  unfold recycles
  cases hk : spec.kind <;> simp_all

theorem cap_nonneg (hb : 0 ≤ b) (hm : 0 ≤ m)
    (h : spec.maxAdmissionBlocksPerRequest b m = some cap) : 0 ≤ cap := by
  have hv := spec.kind_valid
  unfold maxAdmissionBlocksPerRequest at h
  cases hk : spec.kind with
  | slidingWindow w =>
    simp only [hk, Option.some.injEq] at h
    have hw : 0 < w := by rwa [hk] at hv
    have := cdiv_nonneg (a := min ((w : Int) - 1 + b) m) (by omega) spec.blockSize_pos
    omega
  | chunkedLocal c =>
    simp only [hk, Option.some.injEq] at h
    rw [← h]
    exact cdiv_nonneg (by omega) spec.blockSize_pos
  | fullAttention cls => simp [hk] at h
  | mamba mode k => simp [hk] at h
  | crossAttention => simp [hk] at h

theorem chunk_start_le (chunk : Nat) {blockSize : Nat} (hb : 0 < blockSize) (q : Nat) :
    q * chunk % blockSize ≤ blockSize - Nat.gcd chunk blockSize := by
  have hdvd : Nat.gcd chunk blockSize ∣ blockSize - q * chunk % blockSize := by
    refine Nat.dvd_sub (Nat.gcd_dvd_right _ _) ?_
    rw [Nat.dvd_mod_iff (Nat.gcd_dvd_right _ _)]
    exact (Nat.gcd_dvd_left _ _).mul_left q
  have hlt := Nat.mod_lt (q * chunk) hb
  have := Nat.le_of_dvd (by omega) hdvd
  omega

theorem span_le_cap {t n : Int} {k : Nat} (hfits : spec.WindowFits b m k)
    (hcap : spec.maxAdmissionBlocksPerRequest b m = some cap) (ht : 0 ≤ t) (hn : n ≤ b + k) :
    cdiv (min (t + n) m) spec.blockSize - spec.getNumSkippedTokens t / spec.blockSize ≤ cap := by
  have hbs := spec.blockSize_pos
  have hbs' : (0 : Int) < spec.blockSize := by exact_mod_cast hbs
  have hm := le_cdiv_mul m hbs
  set s := spec.getNumSkippedTokens t with hs
  have hdiv := Int.mul_ediv_add_emod s spec.blockSize
  have hmod := Int.emod_lt_of_pos s hbs'
  rw [sub_le_iff_le_add, cdiv_le_iff _ _ hbs, add_mul]
  rw [mul_comm] at hdiv
  unfold WindowFits at hfits
  unfold maxAdmissionBlocksPerRequest at hcap
  unfold getNumSkippedTokens at hs
  cases hk : spec.kind with
  | slidingWindow w =>
    simp only [hk, Option.some.injEq] at hfits hcap hs
    have hpos : 0 ≤ s / (spec.blockSize : Int) * spec.blockSize :=
      mul_nonneg (Int.ediv_nonneg (by omega) hbs'.le) hbs'.le
    rw [← hcap, add_mul]
    by_cases hlong : m ≤ w - 1 + b
    · rw [min_eq_right hlong]
      omega
    · rw [min_eq_left (by omega : (w : Int) - 1 + b ≤ m)]
      rw [add_mul] at hfits
      omega
  | chunkedLocal c =>
    have hc : 0 < c := by
      have := spec.kind_valid
      rwa [hk] at this
    have hc' : (0 : Int) < c := by exact_mod_cast hc
    simp only [hk, Option.some.injEq] at hfits hcap hs
    have hstart := chunk_start_le c hbs (t / c).toNat
    have hsnat : s = (((t / c).toNat * c : Nat) : Int) := by
      rw [hs, Nat.cast_mul, Int.toNat_of_nonneg (Int.ediv_nonneg ht hc'.le)]
    have hmod' : s % (spec.blockSize : Int) ≤
        (spec.blockSize - Nat.gcd c spec.blockSize : Nat) := by
      rw [hsnat]
      exact_mod_cast hstart
    have hchunk : t < s + c := by
      have h1 := Int.mul_ediv_add_emod t c
      have h2 := Int.emod_lt_of_pos t hc'
      rw [mul_comm] at h1
      omega
    have hpos : 0 ≤ s / (spec.blockSize : Int) * spec.blockSize := by
      rw [hsnat]
      exact Int.natCast_nonneg _
    rw [← hcap]
    by_cases hlong : m ≤ c + b
    · rw [min_eq_right hlong]
      omega
    · rw [min_eq_left (by omega : (c : Int) + b ≤ m)]
      omega
  | fullAttention cls => simp [hk] at hcap
  | mamba mode k' => simp [hk] at hcap
  | crossAttention => simp [hk] at hcap

end KVCacheSpec

namespace Admission
open BlockPool Manager KVCacheManager Ownership
variable {α : Type} [DecidableEq α]

structure ListSet (m m' : Manager α) (r : α) (l : List Nat) : Prop where
  spec : m'.spec = m.spec
  blocks : ∀ a, m'.blocks a = if a = r then l else m.blocks a

section managers
variable {p p' : BlockPool} {m m' : Manager α} {r : α}

theorem listSet_of_set {l : List Nat} (hs : m'.spec = m.spec)
    (hb : m'.reqToBlocks = m.reqToBlocks.set r l) : ListSet m m' r l := by
  refine ⟨hs, fun a => ?_⟩
  rw [blocks, hb, Dict.getD_set]
  rfl

theorem ListSet.self (m : Manager α) (r : α) : ListSet m m r (m.blocks r) :=
  ⟨rfl, fun a => by split_ifs with h <;> simp [h]⟩

theorem ListSet.trans {m1 m2 : Manager α} {l l' : List Nat} (h : ListSet m m1 r l)
    (h' : ListSet m1 m2 r l') : ListSet m m2 r l' := by
  refine ⟨h'.spec.trans h.spec, fun a => ?_⟩
  rw [h'.blocks, h.blocks]
  split_ifs <;> rfl

variable {t : Int} {xs : List Nat}

theorem removeSkipped_nullKept (hp : p.NullKept) (he : m.removeSkippedBlocks p r t = .ok (p', m')) :
    p'.NullKept ∧ m'.spec = m.spec :=
  removeSkipped_moves (fun q a => q.NullKept ∧ a.spec = m.spec) ⟨hp, rfl⟩
    (fun _ _ _ removed hI _ => ⟨hI.1.freeBlocks removed, hI.2⟩) he

theorem removeSkipped_recycles (hs : m.spec.recycles = true) (hn : NullsFirst (m.blocks r))
    (he : m.removeSkippedBlocks p r t = .ok (p', m')) :
    ListSet m m' r (nullBelow (m.numSkippedBlocks t) (m.blocks r)) ∧
      m'.numCachedBlock = m.numCachedBlock := by
  have hbase : m.baseRemoveSkippedBlocks p r t = (p', m') := by
    unfold Manager.removeSkippedBlocks at he
    unfold KVCacheSpec.recycles at hs
    split at he
    · rename_i hk
      simp [hk] at hs
    · exact Except.ok.inj he
  unfold baseRemoveSkippedBlocks at hbase
  simp only at hbase
  split_ifs at hbase with hle
  · cases hbase
    have h0 : m.numSkippedBlocks t = 0 := by
      rw [numSkippedBlocks, Int.toNat_eq_zero]
      exact Int.ediv_nonpos_of_nonpos_of_neg hle (by exact_mod_cast m.spec.blockSize_pos)
    rw [h0]
    simpa [nullBelow] using ListSet.self m r
  · cases hbase
    refine ⟨?_, rfl⟩
    rw [nullSkipped_of_nullsFirst hn]
    exact listSet_of_set rfl rfl

section
variable (hp : p.NullKept)
include hp

theorem baseAllocate_nullKept (he : m.baseAllocateNewBlocks p r t = .ok (p', m', xs)) :
    ∃ ret, ListSet m m' r (m.blocks r ++ ret) ∧ 0 ∉ ret ∧
      ret.length = (cdiv t m.blockSize - (m.blocks r).length).toNat := by
  unfold baseAllocateNewBlocks at he
  simp only at he
  split_ifs at he with hle
  · cases he
    exact ⟨[], listSet_of_set rfl (by simp [setBlocks]), by simp, by simp; omega⟩
  rw [seq_ok_iff] at he
  obtain ⟨⟨q, ret⟩, hget, he⟩ := he
  cases he
  obtain ⟨-, h0, hlen⟩ := hp.getNewBlocks hget
  exact ⟨ret, listSet_of_set (by simp [setBlocks]) (by simp [setBlocks]), h0, hlen⟩

theorem allocateNewBlocks_recycles (hs : m.spec.recycles = true) {tm : Int}
    (he : m.allocateNewBlocks p r t tm = .ok (p', m', xs)) :
    ∃ ret, ListSet m m' r (m.blocks r ++ ret) ∧ 0 ∉ ret ∧
      ret.length = (cdiv t m.blockSize - (m.blocks r).length).toNat := by
  unfold Manager.allocateNewBlocks at he
  unfold KVCacheSpec.recycles at hs
  split at he
  · rename_i hk
    simp [hk] at hs
  · exact baseAllocate_nullKept hp he

theorem addComputed_nullKept {hits : List Nat} {loc ext : Int}
    (he : m.addComputedBlocks p r hits loc ext = .ok (p', m')) :
    ∃ ret, ListSet m m' r (m.computedList hits (loc + ext) ++ ret) ∧ 0 ∉ ret ∧
      ret.length ≤
        (cdiv (loc + ext) m.blockSize - (m.computedList hits (loc + ext)).length).toNat := by
  obtain ⟨-, p1, htouch, he⟩ := addComputed_inv he
  have hp1 := steady_nullKept.touchComputed hp htouch
  rcases he with ⟨ret, -, hget, rfl⟩ | ⟨-, rfl, rfl⟩
  · obtain ⟨-, h0, hlen⟩ := hp1.getNewBlocks hget
    have hc : ListSet m (m.withComputed r (m.computedList hits (loc + ext))) r
        (m.computedList hits (loc + ext)) := listSet_of_set rfl rfl
    have hc' : ListSet (m.withComputed r (m.computedList hits (loc + ext)))
        (((m.withComputed r (m.computedList hits (loc + ext))).setBlocks r
          (m.computedList hits (loc + ext) ++ ret)).noteNewBlocks ret) r
        (m.computedList hits (loc + ext) ++ ret) := by
      refine listSet_of_set ?_ ?_ <;> simp [setBlocks]
    exact ⟨ret, hc.trans hc', h0, hlen.le⟩
  · exact ⟨[], listSet_of_set rfl (by simp [withComputed, setBlocks]), by simp, by simp⟩

end

end managers

/-! One call of `allocate_slots`. -/

section call
variable (b M : Int) (k : Nat)

/-- In a group with a cap the null blocks of `a` come first and the others are within it. -/
def Capped (m : Manager α) (a : α) : Prop :=
  ∀ cap, m.spec.maxAdmissionBlocksPerRequest b M = some cap →
    NullsFirst (m.blocks a) ∧ held (m.blocks a) ≤ cap

structure GroupOK (m : Manager α) : Prop where
  fits : m.spec.WindowFits b M k
  capped : ∀ a, Capped b M m a

/-- The blocks of `r` below the window of the token behind `t` are null. -/
def NullBelowWindow (m : Manager α) (r : α) (t : Int) : Prop :=
  ∀ j x : Nat, j < m.numSkippedBlocks t → (m.blocks r)[j]? = some x → x = 0

structure Placed (r : α) (t need : Int) (m : Manager α) : Prop where
  fits : m.spec.WindowFits b M k
  others : ∀ a, a ≠ r → Capped b M m a
  own : ∀ cap, m.spec.maxAdmissionBlocksPerRequest b M = some cap → NullsFirst (m.blocks r) ∧
    NullBelowWindow m r t ∧ m.numSkippedBlocks t ≤ (m.blocks r).length ∧
    (held (m.blocks r) ≤ cap ∨ (m.blocks r).length ≤ cdiv need m.blockSize)

variable {b M k} {p p' : BlockPool} {m m' : Manager α} {r : α} {t : Int}

theorem Capped.of_blocks {a : α} (h : Capped b M m a) (hs : m'.spec = m.spec)
    (hb : m'.blocks a = m.blocks a) : Capped b M m' a := by
  intro cap hcap
  rw [hs] at hcap
  rw [hb]
  exact h cap hcap

omit [DecidableEq α] in
theorem numSkippedBlocks_of_spec (hs : m'.spec = m.spec) (t : Int) :
    m'.numSkippedBlocks t = m.numSkippedBlocks t := by
  rw [numSkippedBlocks, numSkippedBlocks, blockSize, blockSize, hs]

theorem GroupOK.removeSkipped (h : GroupOK b M k m) (hp : p.NullKept)
    (he : m.removeSkippedBlocks p r t = .ok (p', m')) :
    GroupOK b M k m' ∧ (m.spec.recycles = true → NullBelowWindow m' r t ∧
      (m'.blocks r).length = (m.blocks r).length ∧ m'.numCachedBlock = m.numCachedBlock) := by
  have hspec := (removeSkipped_nullKept hp he).2
  have hset (cap : Int) (hcap : m.spec.maxAdmissionBlocksPerRequest b M = some cap) :=
    removeSkipped_recycles (KVCacheSpec.recycles_of_cap hcap) (h.capped r cap hcap).1 he
  refine ⟨⟨hspec ▸ h.fits, fun a cap hcap => ?_⟩, fun hrec => ?_⟩
  · rw [hspec] at hcap
    obtain ⟨hn, hle⟩ := h.capped a cap hcap
    rw [(hset cap hcap).1.blocks]
    split_ifs with ha
    · subst ha
      have := held_nullBelow_le (m.numSkippedBlocks t) (m.blocks a)
      exact ⟨hn.replicate_append_drop _ _, by omega⟩
    · exact ⟨hn, hle⟩
  obtain ⟨cap, hcap⟩ : ∃ cap, m.spec.maxAdmissionBlocksPerRequest b M = some cap := by
    unfold KVCacheSpec.recycles at hrec
    unfold KVCacheSpec.maxAdmissionBlocksPerRequest
    cases hk : m.spec.kind <;> simp_all
  obtain ⟨hl, hcached⟩ := hset cap hcap
  have hb := hl.blocks r
  rw [if_pos rfl] at hb
  refine ⟨fun j x hj hx => ?_, ?_, hcached⟩
  · rw [hb] at hx
    rw [numSkippedBlocks_of_spec hspec] at hj
    exact nullBelow_null hj hx
  · rw [hb, length_nullBelow]

theorem placed_of_computed (h : GroupOK b M k m) (hp : p.NullKept) {hits : List Nat}
    {loc ext need : Int} (ht : 0 ≤ loc + ext) (hneed : loc + ext ≤ need)
    (hn : m.spec.recycles = true → m.numCachedBlock.contains r = false ∧ NullsFirst hits ∧
      hits.length * m.blockSize ≤ loc + ext)
    (he : m.allocateNewComputedBlocks p r hits loc ext = .ok (p', m')) :
    Placed b M k r (loc + ext) need m' := by
  have hspec := (steady_nullKept.allocateComputed hp he).2
  by_cases hrec : m.spec.recycles = true
  · obtain ⟨hcached, hfirst, hlen⟩ := hn hrec
    have hadd : m.addComputedBlocks p r hits loc ext = .ok (p', m') := by
      unfold Manager.allocateNewComputedBlocks at he
      unfold KVCacheSpec.recycles at hrec
      split at he
      · rename_i hk
        simp [hk] at hrec
      · rwa [if_neg (by simp [hcached])] at he
    obtain ⟨ret, hset, h0, hret⟩ := addComputed_nullKept hp hadd
    have hb := hset.blocks r
    rw [if_pos rfl] at hb
    refine ⟨hspec ▸ h.fits, fun a ha => ?_, fun cap hcap => ?_⟩
    · refine (h.capped a).of_blocks hspec ?_
      rw [hset.blocks, if_neg ha]
    have hskip := numSkippedBlocks_of_spec hspec (loc + ext)
    have hbs : m'.blockSize = m.blockSize := by rw [blockSize, hspec]; rfl
    have hpos : 0 < m.blockSize := m.spec.blockSize_pos
    have hlist := length_computedList m hits (loc + ext)
    have hle : (hits.length : Int) ≤ cdiv (loc + ext) m.blockSize := by
      have h1 := le_cdiv_mul (loc + ext) hpos
      have hpos' : (0 : Int) < m.blockSize := by exact_mod_cast hpos
      exact le_of_mul_le_mul_right (hlen.trans h1) hpos'
    have hskiple := numSkippedBlocks_le_cdiv m ht
    have hmono := cdiv_mono hneed hpos
    rw [hbs, NullBelowWindow, hskip, hb]
    refine ⟨(hfirst.replicate_append_drop _ _).append h0, fun j x hj hx => ?_, ?_, .inr ?_⟩
    · rw [computedList, append_assoc, getElem?_append_left (by simpa using hj),
        getElem?_replicate, if_pos hj] at hx
      exact (Option.some_inj.mp hx).symm
    · rw [length_append]
      omega
    · rw [length_append]
      omega
  · have hnone (m0 : Manager α) (hs : m0.spec = m.spec) (cap : Int)
        (hcap : m0.spec.maxAdmissionBlocksPerRequest b M = some cap) : False :=
      hrec (hs ▸ KVCacheSpec.recycles_of_cap hcap)
    exact ⟨hspec ▸ h.fits, fun a _ cap hcap => (hnone m' hspec cap hcap).elim,
      fun cap hcap => (hnone m' hspec cap hcap).elim⟩

theorem GroupOK.placed (h : GroupOK b M k m) (need : Int)
    (hr : m.spec.recycles = true → NullBelowWindow m r t ∧
      m.numSkippedBlocks t ≤ (m.blocks r).length) : Placed b M k r t need m := by
  refine ⟨h.fits, fun a _ => h.capped a, fun cap hcap => ?_⟩
  obtain ⟨hbelow, hlen⟩ := hr (KVCacheSpec.recycles_of_cap hcap)
  obtain ⟨hn, hle⟩ := h.capped r cap hcap
  exact ⟨hn, hbelow, hlen, .inl hle⟩

theorem Placed.allocate {n tm : Int} {xs : List Nat}
    (h : Placed b M k r t (min (t + n) M) m) (hp : p.NullKept) (ht : 0 ≤ t) (hn : n ≤ b + k)
    (he : m.allocateNewBlocks p r (min (t + n) M) tm = .ok (p', m', xs)) : GroupOK b M k m' := by
  have hspec := (steady_nullKept.allocateNewBlocks hp he).2
  refine ⟨hspec ▸ h.fits, fun a cap hcap => ?_⟩
  rw [hspec] at hcap
  obtain ⟨ret, hset, h0, hlen⟩ :=
    allocateNewBlocks_recycles hp (KVCacheSpec.recycles_of_cap hcap) he
  by_cases ha : a = r
  · subst ha
    rw [hset.blocks, if_pos rfl]
    obtain ⟨hfirst, hbelow, hskip, hle⟩ := h.own cap hcap
    refine ⟨hfirst.append h0, ?_⟩
    have hspan := KVCacheSpec.span_le_cap h.fits hcap ht hn
    have hnn : ((m.numSkippedBlocks t : Nat) : Int) ≥
        m.spec.getNumSkippedTokens t / m.spec.blockSize := by
      exact Int.self_le_toNat _
    have hheld : held (m.blocks a ++ ret) ≤ (m.blocks a ++ ret).length - m.numSkippedBlocks t := by
      refine held_le_of_null_below (fun j x hj hx => ?_)
      rw [getElem?_append_left (by omega)] at hx
      exact hbelow j x hj hx
    rw [length_append] at hheld
    have hcases : ret.length = 0 ∨ ((m.blocks a).length + ret.length : Int) ≤
        cdiv (min (t + n) M) m.blockSize := by omega
    have hbs : m.blockSize = m.spec.blockSize := rfl
    rw [hbs] at hcases hle
    rcases hcases with h1 | h1
    · rw [length_eq_zero_iff] at h1
      subst h1
      rw [append_nil] at hheld ⊢
      rcases hle with hle | hle
      · exact hle
      · simp only [length_nil] at hheld
        omega
    · omega
  · refine (h.others a ha).of_blocks hspec ?_ cap (hspec ▸ hcap)
    rw [hset.blocks, if_neg ha]

end call

structure CapInv (c : KVConfig) (k : Nat) (kv : KVCacheManager α) : Prop where
  pool : kv.pool.NullKept
  maxModelLen : kv.maxModelLen = c.maxModelLen
  groups : ∀ m ∈ kv.managers, GroupOK c.maxNumBatchedTokens c.maxModelLen k m

def Commits (kv : KVCacheManager α) (a : SlotArgs) : Prop :=
  (kv.newComputedBlockList a).any (fun l => l ≠ []) ∨ a.numExternalComputedTokens > 0

/-- What `allocate_slots` is called with: a request that lists hits has no slots yet, the hits
belong to its computed tokens and leave out no block of the window; any other request goes on
from tokens that have slots. -/
structure CapCall (c : KVConfig) (k : Nat) (kv : KVCacheManager α) (req : KVRequest α)
    (a : SlotArgs) : Prop where
  tokens : a.numNewTokens + a.numLookaheadTokens ≤ c.maxNumBatchedTokens + k
  tokens_nonneg : 0 ≤ a.numNewTokens + a.numLookaheadTokens
  computed_nonneg : 0 ≤ numLocalComputedTokens req a + a.numExternalComputedTokens
  hits : Commits kv a →
    numLocalComputedTokens req a + a.numExternalComputedTokens ≤ kv.maxModelLen ∧
    ∀ (i : Nat) m, kv.managers[i]? = some m → m.spec.recycles = true →
      m.numCachedBlock.contains req.requestId = false ∧
      NullsFirst ((kv.newComputedBlockList a).getD i []) ∧
      ((kv.newComputedBlockList a).getD i []).length * m.blockSize ≤
        numLocalComputedTokens req a + a.numExternalComputedTokens
  goesOn : ¬Commits kv a → ∀ m ∈ kv.managers, m.spec.recycles = true →
    m.numSkippedBlocks (kv.totalComputedTokens req a) ≤ (m.blocks req.requestId).length

section kv
variable {c : KVConfig} {k : Nat} {kv kv' : KVCacheManager α} {req : KVRequest α} {a : SlotArgs}

theorem CapInv.of_groups (h : CapInv c k kv) {kv' : KVCacheManager α}
    (hpost : kv'.pool.NullKept ∧ (∀ (i : Nat) m, kv'.managers[i]? = some m →
      GroupOK c.maxNumBatchedTokens c.maxModelLen k m) ∧ kv'.maxModelLen = kv.maxModelLen) :
    CapInv c k kv' := by
  refine ⟨hpost.1, hpost.2.2.trans h.maxModelLen, fun m hm => ?_⟩
  obtain ⟨i, hi⟩ := mem_iff_getElem?.mp hm
  exact hpost.2.1 i m hi

def AtWindow (c : KVConfig) (k : Nat) (kv : KVCacheManager α) (r : α) (t : Int) (i : Nat)
    (m' : Manager α) : Prop :=
  GroupOK c.maxNumBatchedTokens c.maxModelLen k m' ∧ ∃ m, kv.managers[i]? = some m ∧
    m'.spec = m.spec ∧ (m.spec.recycles = true → NullBelowWindow m' r t ∧
      (m'.blocks r).length = (m.blocks r).length ∧ m'.numCachedBlock = m.numCachedBlock)

section
variable (h : CapInv c k kv)
include h

theorem CapInv.removeSkipped {r : α} {t : Int}
    (he : kv.removeSkippedBlocks r t = .ok kv') :
    (kv'.pool.NullKept ∧ (∀ (i : Nat) m, kv'.managers[i]? = some m → AtWindow c k kv r t i m) ∧
      kv'.maxModelLen = kv.maxModelLen) ∧ kv'.emptyBlocks = kv.emptyBlocks := by
  obtain ⟨f, us, hrun, hf⟩ := run_of_calls he
  refine ⟨?_, by simp [emptyBlocks, run_length hrun]⟩
  refine run_post NullKept (fun i m => kv.managers[i]? = some m) _ ?_ h.pool
    (fun i m hm => hm) hrun
  intro i p m p' m' x hp hm hs
  have hstep := hf hs
  have hk := removeSkipped_nullKept hp hstep
  obtain ⟨hok, hwindow⟩ := (h.groups m (mem_of_getElem? hm)).removeSkipped hp hstep
  exact ⟨hk.1, hok, m, hm, hk.2, hwindow⟩

theorem CapInv.cache {t : Int}
    (he : kv.coordinatorCacheBlocks req t = .ok kv') : CapInv c k kv' := by
  obtain ⟨f, us, hrun, hf⟩ := run_of_calls he
  refine h.of_groups (run_post NullKept
    (fun _ m => GroupOK c.maxNumBatchedTokens c.maxModelLen k m) _ ?_ h.pool
    (fun i m hm => h.groups m (mem_of_getElem? hm)) hrun)
  intro i p m p' m' x hp hm hs
  have hstep := hf hs
  have hr := cacheBlocks_range hstep
  exact ⟨hp.cacheFullBlocks hr.pool, hr.spec ▸ hm.fits, fun x =>
    (hm.capped x).of_blocks hr.spec (hr.blocks x)⟩

theorem CapInv.commitComputed (hcall : CapCall c k kv req a)
    {kv1 kv2 : KVCacheManager α}
    (he1 : kv.removeSkippedBlocks req.requestId (kv.totalComputedTokens req a) = .ok kv1)
    (he2 : kv1.commitComputed req a = .ok kv2) :
    kv2.pool.NullKept ∧ (∀ (i : Nat) m, kv2.managers[i]? = some m →
      Placed c.maxNumBatchedTokens c.maxModelLen k req.requestId (kv.totalComputedTokens req a)
        (kv.numTokensNeedSlot req a) m) ∧ kv2.maxModelLen = kv.maxModelLen := by
  obtain ⟨⟨hp1, htrim, hmax⟩, hempty⟩ := h.removeSkipped he1
  have hlist : kv1.newComputedBlockList a = kv.newComputedBlockList a := by
    rw [newComputedBlockList, newComputedBlockList, hempty]
  have hneed : kv.totalComputedTokens req a ≤ kv.numTokensNeedSlot req a := by
    have := hcall.tokens_nonneg
    unfold numTokensNeedSlot numTokensMainModel totalComputedTokens
    omega
  unfold KVCacheManager.commitComputed at he2
  by_cases hc : Commits kv a
  · obtain ⟨hfit, hhits⟩ := hcall.hits hc
    have htotal : kv.totalComputedTokens req a =
        numLocalComputedTokens req a + a.numExternalComputedTokens := min_eq_left hfit
    unfold Commits at hc
    rw [hlist, if_pos hc] at he2
    obtain ⟨f, us, hrun, hf⟩ := run_of_calls he2
    have hpost := run_post NullKept
      (AtWindow c k kv req.requestId (kv.totalComputedTokens req a))
      (fun _ m => Placed c.maxNumBatchedTokens c.maxModelLen k req.requestId
        (kv.totalComputedTokens req a) (kv.numTokensNeedSlot req a) m) ?_ hp1 htrim hrun
    · exact ⟨hpost.1, hpost.2.1, hpost.2.2.trans hmax⟩
    rintro i p m p' m' x hp ⟨hok, m0, hm0, hspec, hwindow⟩ hs
    have hstep := hf hs
    refine ⟨(steady_nullKept.allocateComputed hp hstep).1, ?_⟩
    rw [htotal] at hneed ⊢
    refine placed_of_computed hok hp hcall.computed_nonneg hneed (fun hrec => ?_) hstep
    rw [hspec] at hrec
    obtain ⟨hcached, hn, hl⟩ := hhits i m0 hm0 hrec
    rw [(hwindow hrec).2.2, blockSize, hspec]
    exact ⟨hcached, hn, hl⟩
  · have hgo := hcall.goesOn hc
    unfold Commits at hc
    rw [hlist, if_neg hc] at he2
    cases he2
    refine ⟨hp1, fun i m hm => ?_, hmax⟩
    obtain ⟨hok, m0, hm0, hspec, hwindow⟩ := htrim i m hm
    refine hok.placed _ (fun hrec => ?_)
    rw [hspec] at hrec
    obtain ⟨hbelow, hl, -⟩ := hwindow hrec
    refine ⟨hbelow, ?_⟩
    rw [numSkippedBlocks_of_spec hspec, hl]
    exact hgo m0 (mem_of_getElem? hm0) hrec

theorem CapInv.allocateSlots (hcall : CapCall c k kv req a)
    {res : Option (List (List Nat))} (he : kv.allocateSlots req a = .ok (kv', res)) :
    CapInv c k kv' := by
  obtain rfl | ⟨kv1, he1, hend⟩ := allocateSlots_inv he
  · exact h
  obtain rfl | ⟨xs, hcommit⟩ := hend
  · have hremoved := (h.removeSkipped he1).1
    exact h.of_groups ⟨hremoved.1, fun i m hm => (hremoved.2.1 i m hm).1, hremoved.2.2⟩
  simp only [commitSlots, seq_ok_iff] at hcommit
  obtain ⟨kv2, he2, ⟨kv3, ys⟩, he3, kv4, he4, hcommit⟩ := hcommit
  cases hcommit
  obtain ⟨hp2, hplaced, hmax2⟩ := h.commitComputed hcall he1 he2
  have htotal : 0 ≤ kv.totalComputedTokens req a := by
    have h1 := hcall.computed_nonneg
    have h2 := c.maxModelLen_pos
    rw [totalComputedTokens, h.maxModelLen]
    omega
  have hneed2 : kv2.numTokensNeedSlot req a = kv.numTokensNeedSlot req a := by
    simp only [numTokensNeedSlot, numTokensMainModel, totalComputedTokens, hmax2]
  have hok3 : CapInv c k kv3 := by
    rw [hneed2] at he3
    have hpost := run_post NullKept
      (fun _ m => Placed c.maxNumBatchedTokens c.maxModelLen k req.requestId
        (kv.totalComputedTokens req a) (kv.numTokensNeedSlot req a) m)
      (fun _ m => GroupOK c.maxNumBatchedTokens c.maxModelLen k m) ?_ hp2 hplaced he3
    · exact h.of_groups ⟨hpost.1, hpost.2.1, hpost.2.2.trans hmax2⟩
    intro i p m p' m' x hp hm hs
    refine ⟨(steady_nullKept.allocateNewBlocks hp hs).1, ?_⟩
    by_cases hcross : m.spec.kind = .crossAttention
    · have hspec := (steady_nullKept.allocateNewBlocks hp hs).2
      refine ⟨hspec ▸ hm.fits, fun x cap hcap => ?_⟩
      rw [hspec, KVCacheSpec.maxAdmissionBlocksPerRequest, hcross] at hcap
      cases hcap
    rw [if_neg hcross] at hs
    have hneed : kv.numTokensNeedSlot req a = min (kv.totalComputedTokens req a +
        (a.numNewTokens + a.numLookaheadTokens)) c.maxModelLen := by
      rw [numTokensNeedSlot, numTokensMainModel, h.maxModelLen, add_assoc]
    rw [hneed] at hm hs
    exact hm.allocate hp htotal hcall.tokens hs
  unfold commitCache at he4
  split_ifs at he4
  · cases he4
    exact hok3
  · exact hok3.cache he4

end

end kv

end Admission
end TailBlend
