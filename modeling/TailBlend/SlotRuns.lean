import TailBlend.SlotAtomic

/-! `allocate_slots` in every state that a run of the cache manager reaches. -/
namespace TailBlend.Ownership
open BlockPool Manager KVCacheManager List
variable {α : Type} [DecidableEq α]

section operations
variable {kv : KVCacheManager α} {granted : α → Option Int}

theorem free_idle (p : BlockPool) (m : Manager α) (r : α)
    (hplain : Plain m r) : Idle (m.free p r).2 r := by
  refine ⟨?_, ?_, ?_, ?_⟩
  · simp [Manager.blocks, Manager.free]
  · simp [Manager.free]
  · unfold Manager.free
    split
    · simp
    · rename_i hk
      exact (hplain (fun n h => hk n h)).1
  · unfold Manager.free
    split
    · simp
    · rename_i hk
      exact (hplain (fun n h => hk n h)).2

theorem free_sameFor (p : BlockPool) (m : Manager α) {r a : α} (ha : a ≠ r) :
    SameFor m (m.free p r).2 a := by
  refine ⟨?_, ?_, ?_, ?_⟩
  · simp [Manager.blocks, Manager.free, ha]
  · simp [Manager.free, ha]
  · unfold Manager.free
    split
    · simp [ha]
    · rfl
  · unfold Manager.free
    split
    · simp [ha]
    · rfl

theorem Ledger.plain {m : Manager α} (h : Ledger m granted) (r : α) : Plain m r := by
  have := h r
  cases hg : granted r with
  | none =>
    rw [hg] at this
    exact fun _ => ⟨this.allocated, this.last⟩
  | some g =>
    rw [hg] at this
    exact this.plain

theorem Private.free {p : BlockPool} {ms1 ms2 : List (Manager α)} {m : Manager α}
    (h : Private p (ms1 ++ m :: ms2)) (ho : Owned p (ms1 ++ m :: ms2)) (r : α) :
    Private (m.free p r).1 (ms1 ++ (m.free p r).2 :: ms2) := by
  have hc : Changed m (m.free p r).2 r [] := by
    refine changed_of_erase ?_ ?_ rfl <;>
      (simp only [Manager.free]; split <;> rfl)
  exact h.release ho hc (fun a ha => (free_sameFor p m ha).numCached) (by simp)
    (fun b _ => by simp) (ho.freed (l := []) (r := r) (fun b _ => by simp))

theorem freeAll_private (r : α) {p : BlockPool} (done ms : List (Manager α))
    (ho : Owned p (done ++ ms)) (h : Private p (done ++ ms)) (hl : ∀ m ∈ ms, Ledger m granted) :
    Private (freeAll r p ms).1 (done ++ (freeAll r p ms).2) ∧
      ∀ m ∈ (freeAll r p ms).2, Ledger m (Function.update granted r none) := by
  induction ms generalizing p done with
  | nil => exact ⟨h, by simp [freeAll]⟩
  | cons m ms ih =>
    have hk := ho.free r
    obtain ⟨hp, hrest⟩ := ih (done ++ [(m.free p r).2]) (by simpa using hk.owned)
      (by simpa using h.free ho r) (fun a ha => hl a (by simp [ha]))
    refine ⟨by simpa [freeAll] using hp, fun a ha => ?_⟩
    simp only [freeAll, mem_cons] at ha
    rcases ha with rfl | ha
    · have hm := hl m (by simp)
      exact hm.update hk.spec (fun b hb => free_sameFor p m hb) (free_idle p m r (hm.plain r))
    · exact hrest a ha

theorem SlotInv.free (h : SlotInv kv granted) (r : α) :
    SlotInv (kv.free r) (Function.update granted r none) := by
  obtain ⟨hp, hl⟩ := freeAll_private r [] kv.managers h.owned.owned h.priv h.ledger
  exact h.of_kept (h.owned.free r) hp hl

theorem SlotInv.evicted {p' : BlockPool} (h : SlotInv kv granted) (he : Evicted kv.pool p') :
    SlotInv { kv with pool := p' } granted := by
  refine h.of_kept (h.owned.evicted he) (fun m hm r i b hi hget hb => ?_) h.ledger
  obtain ⟨hn, h1⟩ := h.priv m hm r i b hi hget hb
  rw [he.refCnt]
  refine ⟨?_, h1⟩
  rcases he.hash b with hsame | hnone
  · rw [hsame, hn]
  · exact hnone

theorem SlotInv.newStep (h : SlotInv kv granted) : SlotInv kv.newStepStarts granted := by
  refine h.of_kept h.owned.newStep ?_ ?_
  · intro m hm
    obtain ⟨m0, hm0, rfl⟩ := mem_map.mp hm
    exact h.priv m0 hm0
  intro m hm
  obtain ⟨m0, hm0, rfl⟩ := mem_map.mp hm
  intro r
  have hsame : SameFor m0 m0.newStepStarts r := ⟨rfl, rfl, Iff.rfl, rfl⟩
  exact hsame.entry rfl (h.ledger m0 hm0 r)

end operations

/-- A run of the cache manager. `granted r` is the largest number of tokens that request `r`
got slots for since its admission. -/
structure Session (α : Type) where
  kv : KVCacheManager α
  granted : α → Option Int

namespace Session

def init (c : KVConfig) : Session α := ⟨c.init, fun _ => none⟩

def allocateSlots (s : Session α) (req : KVRequest α) (a : SlotArgs) :
    Except PyError (Session α) := do
  let (kv, res) ← s.kv.allocateSlots req a
  return ⟨kv, if res.isSome then Function.update s.granted req.requestId
    (some (max ((s.granted req.requestId).getD 0) (s.kv.numTokensMainModel req a))) else s.granted⟩

def step (s : Session α) : Op α → Except PyError (Session α)
  | .newRequest req n k ext enc delay fit => do
    let (hits, cached) ← s.kv.getComputedBlocks req.1
    s.allocateSlots req.1 (admitArgs hits cached n k ext enc delay fit)
  | .allocate req n k enc delay fit => s.allocateSlots req.1 (allocateArgs n k enc delay fit)
  | .free r => .ok ⟨s.kv.free r, Function.update s.granted r none⟩
  | op => do
    let kv ← Ownership.step s.kv op
    return { s with kv := kv }

def run (s : Session α) (ops : List (Op α)) : Except PyError (Session α) := Trace.run step s ops

end Session

/-- The scheduler admits a request that holds no slots: a new or a preempted one. -/
structure NewCall (s : Session α) (req : KVRequest α) (n ext : Nat) : Prop where
  granted : s.granted req.requestId = none
  computed : req.numComputedTokens = 0
  tokens : 0 < n ∨ 0 < ext
  numTokens : 0 ≤ req.numTokens
  hashes : s.kv.pool.enableCaching = true → HashesCover s.kv.pool req
  fits : ∀ hits cached, s.kv.getComputedBlocks req = .ok (hits, cached) →
    (cached : Int) + ext + n ≤ s.kv.maxModelLen

/-- A request with slots goes on from a token that has one. Rejected draft tokens may have
moved it back. -/
@[mk_iff]
structure RunningCall (s : Session α) (req : KVRequest α) (n : Nat) : Prop where
  granted : ∃ g, s.granted req.requestId = some g ∧ req.numComputedTokens ≤ g
  tokens : 0 < n
  numTokens : 0 ≤ req.numTokens
  hashes : s.kv.pool.enableCaching = true → HashesCover s.kv.pool req
  fits : req.numComputedTokens + n ≤ s.kv.maxModelLen

structure CacheCall (s : Session α) (req : KVRequest α) (t : Int) : Prop where
  granted : ∃ g, s.granted req.requestId = some g ∧ t ≤ g
  nonneg : 0 ≤ t
  final : t ≤ req.numTokens
  hashes : s.kv.pool.enableCaching = true → HashesCover s.kv.pool req

def Permitted (s : Session α) : Op α → Prop
  | .newRequest req n _ ext _ _ _ => NewCall s req.1 n ext
  | .allocate req n _ _ _ _ => RunningCall s req.1 n
  | .cacheBlocks req t => CacheCall s req t
  | .removeSkipped _ t => 0 ≤ t
  | _ => True

/-- External tokens come with hits that fit and are in use, and in align mode the list of
the request is not longer than the tokens of this call require. -/
def Predictable (kv : KVCacheManager α) : Op α → Prop
  | .newRequest req n _ ext _ _ _ =>
    ∀ hits cached, kv.getComputedBlocks req.1 = .ok (hits, cached) →
      (0 < ext → ExternalSafe kv hits (req.1.numComputedTokens + cached + ext)) ∧
      ∀ (i : Nat) m, kv.managers[i]? = some m → AlignCall m 0 (hits.getD i []) ext
        (req.1.numComputedTokens + cached + ext) (req.1.numComputedTokens + cached + ext + n)
  | .allocate req n _ _ _ _ => ∀ m ∈ kv.managers,
      AlignFits m (m.blocks req.1.requestId).length (req.1.numComputedTokens + n)
  | _ => True

def GoodRun (s : Session α) (ops : List (Op α)) : Prop :=
  Trace.Meets Session.step (fun s op => Permitted s op ∧ Predictable s.kv op) s ops

def CallOK (kv : KVCacheManager α) : Op α → Prop
  | .newRequest req n k ext enc delay fit =>
    ∀ hits cached, kv.getComputedBlocks req.1 = .ok (hits, cached) →
      SlotResult kv req.1 (admitArgs hits cached n k ext enc delay fit)
  | .allocate req n k enc delay fit => SlotResult kv req.1 (allocateArgs n k enc delay fit)
  | _ => True

variable {kv : KVCacheManager α} {req : KVRequest α} {hits : List (List Nat)} {s s' : Session α}

omit [DecidableEq α] in
theorem getComputedBlocks_nil {cached : Nat} (hne : kv.managers ≠ [])
    (hdvd : kv.pool.enableCaching = true →
      ∀ spec ∈ kv.specs, kv.pool.hashBlockSize ∣ spec.blockSize)
    (hh : kv.pool.enableCaching = true → HashesCover kv.pool req) (hnt : 0 ≤ req.numTokens)
    (he : kv.getComputedBlocks req = .ok (hits, cached)) (hnil : ∀ l ∈ hits, l = []) :
    cached = 0 := by
  rcases getComputedBlocks_cases he with
    ⟨-, rfl⟩ | ⟨hcaching, ⟨spec, _, rows, -, -, rfl, rfl⟩ | ⟨-, hres⟩⟩
  · rfl
  · have := hnil _ (mem_singleton_self _)
    simp only [CacheHit.column, map_eq_nil_iff] at this
    simp [this]
  by_contra hL
  have hspecs : kv.specs ≠ [] := by simpa [specs] using hne
  have hlen : (req.numTokens - 1).toNat / kv.pool.hashBlockSize ≤ req.blockHashes.length := by
    have h1 := hh hcaching
    obtain ⟨n, hn⟩ := Int.eq_ofNat_of_zero_le hnt
    rw [HashesCover, hn] at h1
    have h2 : (req.numTokens - 1).toNat / kv.pool.hashBlockSize ≤
        n / kv.pool.hashBlockSize := Nat.div_le_div_right (by omega)
    have h3 : n / kv.pool.hashBlockSize ≤ req.blockHashes.length := by exact_mod_cast h1
    exact h2.trans h3
  obtain ⟨l, hl, hne⟩ := CacheHit.hybrid_ne_nil (hdvd hcaching) hlen hspecs hres
    (Nat.pos_of_ne_zero hL)
  exact hne (hnil l hl)

theorem getNumBlocksToAllocate_ok {r : α}
    (h : ∀ (i : Nat) m, kv.managers[i]? = some m → m.numCachedBlock.contains r = true →
      hits.getD i [] = []) (t enc total tm : Int) (cap : Bool) :
    ∃ n, kv.getNumBlocksToAllocate r t hits enc total tm cap = .ok n := by
  obtain ⟨n, hn, -⟩ := predicted_of_groups
    (fun e => (groupPredict kv r t hits enc total tm cap e).toOption.getD 0) (by
      rintro ⟨m, i⟩ he
      have hm : kv.managers[i]? = some m := mem_zipIdx_iff_getElem?.mp he
      have hok : ∃ v, groupPredict kv r t hits enc total tm cap (m, i) = .ok v := by
        unfold groupPredict
        split_ifs
        · exact predict_ok (fun _ => rfl) _ _ _ _
        · exact predict_ok (h i m hm) _ _ _ _
      obtain ⟨v, hv⟩ := hok
      exact ⟨v, hv, by simp [hv, Except.toOption]⟩)
  exact ⟨n, hn⟩

theorem fullSequenceFits_ok {a : SlotArgs} (h : ∀ (i : Nat) m, kv.managers[i]? = some m →
      m.numCachedBlock.contains req.requestId = true → (kv.newComputedBlockList a).getD i [] = []) :
    ∃ b, kv.fullSequenceFits req a = .ok b := by
  unfold fullSequenceFits
  by_cases hfit : a.fullSequenceMustFit = true
  · obtain ⟨n, hn⟩ := getNumBlocksToAllocate_ok h (min req.numTokens kv.maxModelLen)
      a.numEncoderTokens (kv.totalComputedTokens req a) (min req.numTokens kv.maxModelLen) true
    rw [if_pos hfit]
    simp only [hn]
    exact ⟨_, rfl⟩
  · rw [if_neg hfit]
    exact ⟨true, rfl⟩

omit [DecidableEq α] in
theorem AlignCall.of_spec {m m' : Manager α} {len ext total tm : Int} {hits : List Nat}
    (h : AlignCall m len hits ext total tm) (hs : m'.spec = m.spec) :
    AlignCall m' len hits ext total tm := by
  have hb : m'.blockSize = m.blockSize := congrArg KVCacheSpec.blockSize hs
  refine ⟨?_, ?_, ?_⟩
  · rw [AlignFits, hs, hb]
    exact h.fits
  · rw [hs, hb]
    exact h.hits
  · rw [hs, hb]
    exact h.external

theorem SlotInv.scaleOK {granted : α → Option Int} (h : SlotInv kv granted) : ScaleOK kv := by
  intro hcaching spec hspec
  have hdvd := h.hashSize hcaching spec hspec
  exact Nat.div_pos (Nat.le_of_dvd spec.blockSize_pos hdvd)
    (Nat.pos_of_dvd_of_pos hdvd spec.blockSize_pos)

section calls
variable {s : Session α}

variable {req : CountedRequest α}

theorem newRequest_ok {n k ext enc : Nat} {delay fit : Bool} {hits : List (List Nat)} {cached : Nat}
    (h : SlotInv s.kv s.granted) (hcall : NewCall s req.1 n ext)
    (hpre : Predictable s.kv (.newRequest req n k ext enc delay fit))
    (hget : s.kv.getComputedBlocks req.1 = .ok (hits, cached)) :
    SlotResult s.kv req.1 (admitArgs hits cached n k ext enc delay fit) ∧
      ∃ kv' res, s.kv.allocateSlots req.1 (admitArgs hits cached n k ext enc delay fit) =
        .ok (kv', res) ∧ SlotInv kv' (if res.isSome then Function.update s.granted req.1.requestId
          (some (s.kv.numTokensMainModel req.1 (admitArgs hits cached n k ext enc delay fit)))
          else s.granted) := by
  have hfits := hcall.fits hits cached hget
  have hc0 := hcall.computed
  have htok := hcall.tokens
  obtain ⟨hsafe, halign⟩ := hpre hits cached hget
  rw [hc0, zero_add] at hsafe halign
  set a := admitArgs hits cached n k ext enc delay fit with ha
  have hloc : numLocalComputedTokens req.1 a = cached := by
    rw [numLocalComputedTokens, hc0, zero_add]
    rfl
  have hext : a.numExternalComputedTokens = ext := rfl
  have hmain (kv1 : KVCacheManager α) (hmax : kv1.maxModelLen = s.kv.maxModelLen) :
      kv1.totalComputedTokens req.1 a = cached + ext ∧
      kv1.numTokensMainModel req.1 a = cached + ext + n ∧
      kv1.numTokensMainModel req.1 a ≤ kv1.numTokensNeedSlot req.1 a := by
    have hn : a.numNewTokens = n := rfl
    have hk : a.numLookaheadTokens = k := rfl
    simp only [numTokensNeedSlot, numTokensMainModel, totalComputedTokens]
    omega
  have hidle (m : Manager α) (hm : m ∈ s.kv.managers) := (h.ledger m hm).idle hcall.granted
  have hoff (hcaching : s.kv.pool.enableCaching = false) (i : Nat) : hits.getD i [] = [] := by
    rw [getComputedBlocks, if_pos (.inl hcaching)] at hget
    cases hget
    exact getD_of_forall_nil (fun l hl => emptyBlocks_nil hl) i
  have hok := getComputedBlocks_hits h.owned h.scaleOK hget
  rw [(hmain s.kv rfl).2.1]
  refine h.allocateSlots ?_ (fullSequenceFits_ok (fun i m hm hcont => ?_)) ?_ ?_
  · have hn : a.numNewTokens = n := rfl
    omega
  · rw [Dict.contains, (hidle m (mem_of_getElem? hm)).cached] at hcont
    cases hcont
  · rw [(hmain s.kv rfl).1]
    positivity
  intro kv1 hrem hk1 h1 hrel htrim
  have hlen : kv1.managers.length = s.kv.managers.length := by
    simpa [specs] using congrArg length hk1.specs
  obtain ⟨htotal1, hmain1, hslot1⟩ := hmain kv1 hk1.maxModelLen
  have hlist : kv1.newComputedBlockList a = hits := rfl
  have hpool : kv1.pool = s.kv.pool :=
    KVOwned.removeSkipped_pool (fun m hm => (hidle m hm).blocks) hrem
  rw [← hmain1]
  refine h1.commit_idle hcall.granted ?_ ?_ ?_ ?_ ?_ ?_ hcall.numTokens ?_ ?_ ?_ hslot1
  · intro i hi
    rw [hpool]
    exact hok i (hlen ▸ hi)
  · rw [hpool]
    exact hoff
  · intro hne hnil hx
    have hne' : s.kv.managers ≠ [] := by
      intro hz
      rw [hz] at hlen
      exact hne (length_eq_zero_iff.mp hlen)
    have hzero := getComputedBlocks_nil hne' h.hashSize hcall.hashes hcall.numTokens hget hnil
    omega
  · intro hx
    rw [hloc]
    have := hsafe (by omega)
    refine ⟨this.nonneg, fun i m hm => ?_, ?_⟩
    · obtain ⟨m0, hm0, hs⟩ := getElem?_of_specs hk1.specs hm
      rw [Manager.blockSize, hs]
      exact this.fits i m0 hm0
    · rw [hpool]
      exact this.held
  · intro i m hm
    obtain ⟨m0, hm0, hs⟩ := getElem?_of_specs hk1.specs hm
    rw [hloc, hmain1]
    exact (halign i m0 hm0).of_spec hs
  · rw [hpool]
    exact hcall.hashes
  · rw [hloc, hext]
    positivity
  · omega
  · omega

theorem running_ok {n k enc : Nat} {delay fit : Bool} {g : Int} (h : SlotInv s.kv s.granted)
    (hcall : RunningCall s req.1 n) (hg : s.granted req.1.requestId = some g)
    (hpre : Predictable s.kv (.allocate req n k enc delay fit)) :
    SlotResult s.kv req.1 (allocateArgs n k enc delay fit) ∧
      ∃ kv' res, s.kv.allocateSlots req.1 (allocateArgs n k enc delay fit) = .ok (kv', res) ∧
        SlotInv kv' (if res.isSome then Function.update s.granted req.1.requestId
          (some (max g (s.kv.numTokensMainModel req.1 (allocateArgs n k enc delay fit))))
          else s.granted) := by
  have hfits := hcall.fits
  have htok := hcall.tokens
  have hc0 := req.2
  have hle : req.1.numComputedTokens ≤ g := by
    obtain ⟨g', hg', hle⟩ := hcall.granted
    rw [hg] at hg'
    cases hg'
    exact hle
  set a := allocateArgs n k enc delay fit with ha
  have hloc : numLocalComputedTokens req.1 a = req.1.numComputedTokens := by
    exact add_zero _
  have hmain (kv1 : KVCacheManager α) (hmax : kv1.maxModelLen = s.kv.maxModelLen) :
      kv1.totalComputedTokens req.1 a = req.1.numComputedTokens ∧
      kv1.numTokensMainModel req.1 a = req.1.numComputedTokens + n ∧
      kv1.numTokensMainModel req.1 a ≤ kv1.numTokensNeedSlot req.1 a := by
    have hn : a.numNewTokens = n := rfl
    have hk : a.numLookaheadTokens = k := rfl
    have hx : a.numExternalComputedTokens = 0 := rfl
    simp only [numTokensNeedSlot, numTokensMainModel, totalComputedTokens]
    omega
  have hnil (kv1 : KVCacheManager α) : ∀ l ∈ kv1.newComputedBlockList a, l = [] :=
    fun l hl => emptyBlocks_nil hl
  rw [(hmain s.kv rfl).2.1]
  refine h.allocateSlots ?_ (fullSequenceFits_ok (fun i m hm _ => getD_of_forall_nil (hnil _) i))
    ?_ ?_
  · have hn : a.numNewTokens = n := rfl
    omega
  · rw [(hmain s.kv rfl).1]
    exact hc0
  intro kv1 hrem hk1 h1 hrel htrim
  obtain ⟨htotal1, hmain1, hslot1⟩ := hmain kv1 hk1.maxModelLen
  rw [← hmain1]
  refine h1.commit_serving hg (hnil kv1) rfl ?_ hcall.numTokens ?_ ?_ ?_ hslot1 ?_
  · rw [hk1.config.caching, HashesCover, hk1.config.hashSize]
    exact hcall.hashes
  · rw [hloc]
    exact hc0
  · rw [hloc]
    exact hle
  · omega
  rw [hmain1]
  refine htrim.forall_mem hk1.specs (fun i m m' hm hs ht => ?_)
  have hb : m'.blockSize = m.blockSize := congrArg KVCacheSpec.blockSize hs
  rw [AlignFits, hs, hb, ht.length]
  exact hpre m (mem_of_getElem? hm)

end calls

theorem Session.allocateSlots_inv {a : SlotArgs} {g : Int}
    (hg : g = max ((s.granted req.requestId).getD 0) (s.kv.numTokensMainModel req a))
    (h : ∃ kv' res, s.kv.allocateSlots req a = .ok (kv', res) ∧
      SlotInv kv' (if res.isSome then Function.update s.granted req.requestId (some g)
        else s.granted)) (he : s.allocateSlots req a = .ok s') : SlotInv s'.kv s'.granted := by
  obtain ⟨kv', res, hrun, hinv⟩ := h
  rw [allocateSlots, hrun] at he
  cases he
  rw [← hg]
  exact hinv

theorem Session.step_inv {op : Op α} (h : SlotInv s.kv s.granted) (hp : Permitted s op)
    (hpre : Predictable s.kv op) (he : s.step op = .ok s') : SlotInv s'.kv s'.granted := by
  cases op with
  | newRequest req n k ext enc delay fit =>
    simp only [step, seq_ok_iff] at he
    obtain ⟨⟨hits, cached⟩, hget, he⟩ := he
    refine allocateSlots_inv ?_ (newRequest_ok h hp hpre hget).2 he
    have hnew : NewCall s req.1 n ext := hp
    rw [hnew.granted]
    refine (max_eq_right (le_of_lt ?_)).symm
    refine numTokensMainModel_pos h.maxModelLen ?_ ?_ ?_ ?_
    · simp [admitArgs]
    · simp [admitArgs]
    · simp [admitArgs]
    · have := hnew.tokens
      rintro ⟨hz, hx⟩
      simp only [admitArgs] at hz hx
      omega
  | allocate req n k enc delay fit =>
    obtain ⟨g, hg, -⟩ := RunningCall.granted hp
    refine allocateSlots_inv ?_ (running_ok h hp hg hpre).2 he
    rw [hg]
    rfl
  | cacheBlocks req t =>
    simp only [step, Ownership.step, KVCacheManager.cacheBlocks, seq_ok_iff] at he
    obtain ⟨kv', hrun, he⟩ := he
    cases he
    have hcall : CacheCall s req t := hp
    obtain ⟨g, hg, hle⟩ := hcall.granted
    split_ifs at hrun with hc
    · obtain ⟨kv1, hrun', h', -⟩ := h.cache hc hg (hcall.hashes hc) hcall.nonneg hcall.final hle
      rw [hrun'] at hrun
      cases hrun
      exact h'
    · cases hrun
      exact h
  | removeSkipped r t =>
    simp only [step, Ownership.step, seq_ok_iff] at he
    obtain ⟨kv', hrun, he⟩ := he
    cases he
    obtain ⟨kv1, hrun', -, h', -⟩ := h.removeSkipped hp r
    rw [hrun'] at hrun
    cases hrun
    exact h'
  | free r =>
    cases he
    exact h.free r
  | evict ids =>
    simp only [step, Ownership.step, KVCacheManager.evictBlocks, seq_ok_iff] at he
    obtain ⟨kv', ⟨p', hp', hkv⟩, he⟩ := he
    cases hkv
    cases he
    exact h.evicted (evictBlocks_evicted h.owned.owned.hash hp')
  | resetPrefixCache =>
    cases he
    exact h.evicted (resetPrefixCache_evicted h.owned.owned.hash)
  | newStep =>
    cases he
    exact h.newStep

theorem Session.run_inv {ops : List (Op α)} (h : SlotInv s.kv s.granted) (hgood : GoodRun s ops)
    (he : s.run ops = .ok s') : SlotInv s'.kv s'.granted :=
  Trace.run_induct (I := fun s => SlotInv s.kv s.granted)
    (fun _ _ _ h hop hs => step_inv h hop.1 hop.2 hs) h hgood he

/-- Prefix caching is not combined with cross attention. -/
def KVConfig.NoCachedCross (c : KVConfig) : Prop :=
  c.enableCaching = true → ∀ g ∈ c.groups, g.spec.kind ≠ .crossAttention

theorem Session.init_inv (c : KVConfig) (hc : c.NoCachedCross) :
    SlotInv (Session.init c : Session α).kv (Session.init c : Session α).granted := by
  have hmem (m : Manager α) (hm : m ∈ (c.init : KVCacheManager α).managers) :
      ∃ g ∈ c.groups, ∃ i x, m = .init g.spec i x := by
    simp only [KVConfig.init, KVCacheManager.init, mem_map] at hm
    obtain ⟨⟨g, i⟩, hg, rfl⟩ := hm
    exact ⟨g, fst_mem_of_mem_zipIdx hg, i, _, rfl⟩
  have hspec (spec : KVCacheSpec) (hs : spec ∈ (c.init : KVCacheManager α).specs) :
      ∃ g ∈ c.groups, spec = g.spec := by
    obtain ⟨m, hm, rfl⟩ := mem_map.mp hs
    obtain ⟨g, hg, i, x, rfl⟩ := hmem m hm
    exact ⟨g, hg, rfl⟩
  refine ⟨(Ownership.init_inv c).owned, ?_, ?_, ?_, ?_, c.maxModelLen_pos⟩
  · intro m hm r i b _ hget
    obtain ⟨g, -, j, x, rfl⟩ := hmem m hm
    simp [Manager.blocks, Manager.init] at hget
  · intro m hm r
    obtain ⟨g, -, j, x, rfl⟩ := hmem m hm
    exact ⟨by simp [Manager.blocks, Manager.init], by simp [Manager.init], by simp [Manager.init],
      by simp [Manager.init]⟩
  · intro hcaching spec hs
    obtain ⟨g, hg, rfl⟩ := hspec spec hs
    exact Nat.dvd_of_mod_eq_zero (c.divides hcaching g hg)
  · intro hcaching spec hs
    obtain ⟨g, hg, rfl⟩ := hspec spec hs
    exact hc hcaching g hg

/-- In every state of a run of permitted and predictable operations, each further call of
`allocate_slots` of that kind raises nothing, fails without effects or takes no more blocks
than predicted. -/
theorem run_allocateSlots_atomic (c : KVConfig) (hc : c.NoCachedCross) (ops : List (Op α))
    (s : Session α) (hgood : GoodRun (.init c) ops) (hrun : (Session.init c).run ops = .ok s)
    (op : Op α) (hp : Permitted s op) (hpre : Predictable s.kv op) : CallOK s.kv op := by
  have h := Session.run_inv (Session.init_inv c hc) hgood hrun
  cases op with
  | newRequest req n k ext enc delay fit =>
    exact fun hits cached hget => (newRequest_ok h hp hpre hget).1
  | allocate req n k enc delay fit =>
    obtain ⟨g, hg, -⟩ := RunningCall.granted hp
    exact (running_ok h hp hg hpre).1
  | _ => trivial

/-! One align-mode group with two speculative blocks of four tokens each. -/

def alignConfig : KVConfig :=
  { ampleConfig with
    groups := [⟨{ kind := .mamba .align 2, blockSize := 4, layout := ⟨1, 1, 0, none, 0⟩,
                  blockSize_pos := Nat.succ_pos 3, kind_valid := trivial }, false⟩]
    hashBlockSize := 4
    hashBlockSize_pos := Nat.succ_pos 3
    divides := by decide }

def alignRequest (numTokens numComputedTokens : Nat) : CountedRequest Nat :=
  ⟨{ requestId := 0
     numTokens := numTokens
     numComputedTokens := numComputedTokens
     allTokenIds := List.replicate numTokens 0
     blockHashes := BlockHash.uniform [0, 0, 0, 0] (numTokens / 4) .noneHash
     skipReadingPrefixCache := false
     chained := BlockHash.chained_uniform _ _ _ }, Int.natCast_nonneg _⟩

/-- A prompt of six tokens in two chunks, the first of which is one block. -/
def alignPrompt : List (Op Nat) :=
  [.newRequest (alignRequest 6 0) 4 0 0 0 false false,
    .allocate (alignRequest 6 4) 2 0 0 false false]

/-- The first sampled token with two drafts behind it. -/
def alignDrafts : Op Nat := .allocate (alignRequest 7 6) 3 0 0 false false

/-- Both drafts were rejected, and none is scheduled this time. -/
def alignShrunk : Op Nat := .allocate (alignRequest 8 7) 1 0 0 false false

theorem predictable_of_no_hits {kv : KVCacheManager α} {req : CountedRequest α} {n : Nat}
    (h : kv.getComputedBlocks req.1 = .ok ([[]], 0)) :
    Predictable kv (.newRequest req n 0 0 0 false false) := by
  intro hits cached hget
  cases h.symm.trans hget
  refine ⟨nofun, fun i m _ => ?_⟩
  have hnil : getD [[]] i ([] : List Nat) = [] := getD_of_forall_nil (by simp) i
  have hpos : 0 ≤ cdiv (req.1.numComputedTokens + 0 + 0 + n) m.blockSize :=
    cdiv_nonneg (by have := req.2; omega) m.spec.blockSize_pos
  rw [hnil]
  exact ⟨fun n _ => add_nonneg hpos (Int.natCast_nonneg n), fun _ _ => hpos, nofun⟩

instance (s : Session α) (req : KVRequest α) (n : Nat) : Decidable (RunningCall s req n) :=
  have : Decidable (∃ g, s.granted req.requestId = some g ∧ req.numComputedTokens ≤ g) :=
    inferInstanceAs (Decidable (∃ g ∈ s.granted req.requestId, req.numComputedTokens ≤ g))
  have : Decidable (HashesCover s.kv.pool req) :=
    inferInstanceAs (Decidable (req.numTokens / s.kv.pool.hashBlockSize ≤ req.blockHashes.length))
  decidable_of_iff' _ (runningCall_iff s req n)

instance (m : Manager α) (len tm : Int) : Decidable (AlignFits m len tm) :=
  match hk : m.spec.kind with
  | .mamba .align n => decidable_of_iff (len ≤ cdiv tm m.blockSize + n) (by simp [AlignFits, hk])
  | .mamba .none _ | .mamba .all _ | .fullAttention _ | .slidingWindow _ | .chunkedLocal _
  | .crossAttention => .isTrue (fun n h => by rw [hk] at h; cases h)

theorem alignPrompt_good : GoodRun (Session.init alignConfig) alignPrompt := by
  have hget : (Session.init alignConfig).kv.getComputedBlocks (alignRequest 6 0).1 =
      .ok ([[]], 0) := by
    decide +kernel
  have hcall : NewCall (Session.init alignConfig) (alignRequest 6 0).1 4 0 := by
    refine ⟨rfl, rfl, .inl (by decide), by decide, fun _ => ?_, fun hits cached h => ?_⟩
    · exact (by decide : (6 : Int) / 4 ≤ 1)
    cases hget.symm.trans h
    decide
  have hval : ((Session.init alignConfig).step
      (.newRequest (alignRequest 6 0) 4 0 0 0 false false)).toOption.all (fun s =>
        RunningCall s (alignRequest 6 4).1 2 ∧
          ∀ m ∈ s.kv.managers, AlignFits m (m.blocks 0).length 6) = true := by
    decide +kernel
  refine ⟨⟨hcall, predictable_of_no_hits hget⟩, fun s h => ⟨?_, fun _ _ => trivial⟩⟩
  rw [h] at hval
  obtain ⟨hcall', hfits⟩ := of_decide_eq_true hval
  exact ⟨hcall', hfits⟩

/-- A running request may schedule its drafts after the prompt. -/
theorem alignDrafts_atomic : ∃ s : Session Nat,
    (Session.init alignConfig).run alignPrompt = .ok s ∧ CallOK s.kv alignDrafts := by
  have hval : ((Session.init alignConfig).run alignPrompt).toOption.any (fun s =>
      RunningCall s (alignRequest 7 6).1 3 ∧
        ∀ m ∈ s.kv.managers, AlignFits m (m.blocks 0).length 9) = true := by
    decide +kernel
  obtain ⟨s, hrun, hval⟩ := ok_of_any hval
  obtain ⟨hcall, hfits⟩ := of_decide_eq_true hval
  exact ⟨s, hrun, run_allocateSlots_atomic alignConfig
    (by simp [KVConfig.NoCachedCross, alignConfig]) alignPrompt s alignPrompt_good hrun
    alignDrafts hcall hfits⟩

/-- The list of five blocks is longer than the four that eight tokens require. -/
theorem alignShrunk_counter : ∃ s : Session Nat,
    (Session.init alignConfig).run (alignPrompt ++ [alignDrafts]) = .ok s ∧
      Permitted s alignShrunk ∧ ¬ CallOK s.kv alignShrunk := by
  have hval : ((Session.init alignConfig).run (alignPrompt ++ [alignDrafts])).toOption.any (fun s =>
      RunningCall s (alignRequest 8 7).1 1 ∧
        (s.kv.allocateSlots (alignRequest 8 7).1 (allocateArgs 1 0 0 false false)).toOption.isNone)
      = true := by
    decide +kernel
  obtain ⟨s, hrun, hval⟩ := ok_of_any hval
  obtain ⟨hcall, herr⟩ := of_decide_eq_true hval
  refine ⟨s, hrun, hcall, fun h => ?_⟩
  have hres : SlotResult s.kv (alignRequest 8 7).1 (allocateArgs 1 0 0 false false) := h
  rw [SlotResult] at hres
  cases hrun' : s.kv.allocateSlots (alignRequest 8 7).1 (allocateArgs 1 0 0 false false) with
  | error e => rwa [hrun'] at hres
  | ok r => simp [hrun', Except.toOption] at herr

end TailBlend.Ownership
