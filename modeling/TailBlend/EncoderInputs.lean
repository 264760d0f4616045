import TailBlend.EncoderCache
import TailBlend.Scheduler

/-! Which encoder inputs a step needs, as the scheduler decides it and as the worker looks
them up. -/
namespace TailBlend
open List

namespace MmFeature

variable (f : MmFeature)

def getEmbedsIndicesInRange (startIdx endIdx : Int) : Int × Int :=
  match f.isEmbed with
  | none => (startIdx, endIdx)
  | some _ => (f.embedsBefore startIdx.toNat, f.embedsBefore endIdx.toNat)

def EmbedAt (x : Int) : Prop :=
  f.offset ≤ x ∧ x < f.offset + f.length ∧
    ∀ mask ∈ f.isEmbed, mask[(x - f.offset).toNat]? = some true

def Needed (a b : Int) : Prop := ∃ x, a ≤ x ∧ x < b ∧ f.EmbedAt x

theorem count_slice (mask : List Bool) {s e : Nat} (h : s ≤ e) :
    (mask.take e).count true = (mask.take s).count true + ((mask.take e).drop s).count true := by
  rw [← count_append]
  conv_lhs => rw [← take_append_drop s (mask.take e)]
  rw [take_take, Nat.min_eq_left h]

theorem range_eq_iff {a b : Int} (hs : max (a - f.offset) 0 ≤ min (b - f.offset) f.length) :
    (f.getEmbedsIndicesInRange (max (a - f.offset) 0) (min (b - f.offset) f.length)).1 =
      (f.getEmbedsIndicesInRange (max (a - f.offset) 0) (min (b - f.offset) f.length)).2 ↔
    ¬f.Needed a b := by
  set s := max (a - f.offset) 0 with hs'
  set e := min (b - f.offset) f.length with he'
  unfold getEmbedsIndicesInRange Needed EmbedAt
  cases hmask : f.isEmbed with
  | none =>
    simp only [Option.mem_def, reduceCtorEq, false_implies, implies_true, and_true]
    constructor
    · omega
    · intro hno
      by_contra hne
      exact hno ⟨f.offset + s, by omega, by omega, by omega, by omega⟩
  | some mask =>
    have hle : s.toNat ≤ e.toNat := by omega
    have hcount := count_slice mask hle
    simp only [embedsBefore, hmask, Option.mem_def, Option.some.injEq, forall_eq']
    have hiff : ((mask.take s.toNat).count true : Int) = (mask.take e.toNat).count true ↔
        ((mask.take e.toNat).drop s.toNat).count true = 0 := by omega
    rw [hiff, count_eq_zero]
    constructor
    · rintro hnot ⟨x, h1, h2, h3, h4, hx⟩
      apply hnot
      refine mem_iff_getElem?.mpr ⟨(x - f.offset).toNat - s.toNat, ?_⟩
      rw [getElem?_drop, getElem?_take, if_pos (by omega), ← hx]
      congr 1
      omega
    intro hno hmem
    obtain ⟨j, hj⟩ := mem_iff_getElem?.mp hmem
    rw [getElem?_drop, getElem?_take] at hj
    split_ifs at hj with hlt
    refine hno ⟨f.offset + (s.toNat + j : Nat), by omega, by omega, by omega, by omega, ?_⟩
    rw [← hj]
    congr 1
    omega

end MmFeature

structure EncoderSettings where
  isEncoderDecoder : Bool
  disableChunkedMmInput : Bool
  /-- `ec_connector.has_cache_item`; never without a connector. -/
  hasCacheItem : String → Bool

/-- The variables of the loop in `_try_schedule_encoder_inputs`. -/
structure EncoderScan (α : Type) where
  cache : EncoderCacheManager α
  encoderComputeBudget : Int
  mmHashesToSchedule : List String
  numEmbedsToSchedule : Int
  encoderInputsToSchedule : List Nat
  externalLoadEncoderInput : List Nat

/-- How an iteration ends: with the next input, or out of the loop with a number of tokens. -/
inductive EncoderNext (α : Type) where
  | goOn (s : EncoderScan α)
  | stop (s : EncoderScan α) (numNewTokens : Int)

namespace EncoderScan
variable {α : Type} [DecidableEq α]

def checkCached (cfg : EncoderSettings) (r : α) (s : EncoderScan α) (f : MmFeature) :
    Except PyError (EncoderScan α × Bool) :=
  if cfg.isEncoderDecoder then .ok (s, false)
  else if f.identifier ∈ s.mmHashesToSchedule then .ok (s, true)
  else do
    let (cache, hit) ← s.cache.checkAndUpdateCache r f
    return ({ s with cache := cache }, hit)

def schedule (cfg : EncoderSettings) (s : EncoderScan α) (i : Nat) (f : MmFeature) :
    EncoderScan α :=
  if cfg.hasCacheItem f.identifier then
    { s with
      mmHashesToSchedule := s.mmHashesToSchedule ++ [f.identifier]
      externalLoadEncoderInput := s.externalLoadEncoderInput ++ [i]
      numEmbedsToSchedule := s.numEmbedsToSchedule + f.numEmbeds }
  else
    { s with
      numEmbedsToSchedule := s.numEmbedsToSchedule + f.numEmbeds
      encoderComputeBudget := s.encoderComputeBudget - f.numEmbeds
      mmHashesToSchedule := s.mmHashesToSchedule ++ [f.identifier]
      encoderInputsToSchedule := s.encoderInputsToSchedule ++ [i] }

def step (cfg : EncoderSettings) (r : α) (numComputedTokens numNewTokens shift : Int)
    (s : EncoderScan α) (i : Nat) (f : MmFeature) : Except PyError (EncoderNext α) :=
  if f.offset ≥ numComputedTokens + numNewTokens + shift then .ok (.stop s numNewTokens)
  else if cfg.isEncoderDecoder ∧ numComputedTokens > 0 then do
    pyAssert (f.offset = 0) "Encoder input should be processed at the beginning of the sequence when encoder-decoder models are used."
    return .goOn s
  else if f.offset + f.length ≤ numComputedTokens then .ok (.goOn s)
  else do
    let (s, hit) ← s.checkCached cfg r f
    if hit then return .goOn s
    -- an input is not split when chunking is disabled
    else if cfg.disableChunkedMmInput ∧ numComputedTokens < f.offset ∧
        numComputedTokens + numNewTokens < f.offset + f.length then
      return .stop s (max 0 (f.offset - (numComputedTokens + shift)))
    else do
      let (cache, fits) ← s.cache.canAllocate f s.encoderComputeBudget s.numEmbedsToSchedule
      let s := { s with cache := cache }
      if fits = false then
        if numComputedTokens + shift < f.offset then
          return .stop s (f.offset - (numComputedTokens + shift))
        else return .stop s 0
      else
        let (first, last) := f.getEmbedsIndicesInRange (max 0 (numComputedTokens - f.offset))
          (min f.length (numComputedTokens + numNewTokens - f.offset))
        if last - first = 0 then return .goOn s
        else return .goOn (s.schedule cfg i f)

def loop (cfg : EncoderSettings) (r : α) (numComputedTokens numNewTokens shift : Int) :
    List MmFeature → Nat → EncoderScan α → Except PyError (EncoderScan α × Int)
  | [], _, s => .ok (s, numNewTokens)
  | f :: fs, i, s => do
    match ← s.step cfg r numComputedTokens numNewTokens shift i f with
    | .goOn s => loop cfg r numComputedTokens numNewTokens shift fs (i + 1) s
    | .stop s n => return (s, n)

end EncoderScan

def tryScheduleEncoderInputs {α : Type} [DecidableEq α] (cfg : EncoderSettings)
    (m : EncoderCacheManager α) (req : Request α)
    (numComputedTokens numNewTokens encoderComputeBudget shift : Int) :
    Except PyError (EncoderCacheManager α × EncoderPlan) :=
  if numNewTokens = 0 ∨ req.hasEncoderInputs = false then
    .ok (m, ⟨[], numNewTokens, encoderComputeBudget, []⟩)
  else do
    let (s, n) ← EncoderScan.loop cfg req.requestId numComputedTokens numNewTokens shift
      req.mmFeatures 0 ⟨m, encoderComputeBudget, [], 0, [], []⟩
    return (s.cache, ⟨s.encoderInputsToSchedule, n, s.encoderComputeBudget,
      s.externalLoadEncoderInput⟩)

/-- The loop of the worker's `_gather_mm_embeddings` over the inputs of a request: the slices it
takes from the outputs in its encoder cache. -/
def gatherMmEmbeddings (encoderCache : String → Bool) (numComputedTokens numScheduledTokens : Int) :
    List MmFeature → Except PyError (List (String × Int × Int))
  | [] => .ok []
  | f :: fs =>
    if f.offset ≥ numComputedTokens + numScheduledTokens then .ok []
    else if f.offset + f.length ≤ numComputedTokens then
      gatherMmEmbeddings encoderCache numComputedTokens numScheduledTokens fs
    else do
      let startIdx := max (numComputedTokens - f.offset) 0
      let endIdx := min (numComputedTokens - f.offset + numScheduledTokens) f.length
      pyAssert (startIdx < endIdx) ""
      let (first, last) := f.getEmbedsIndicesInRange startIdx endIdx
      if first = last then gatherMmEmbeddings encoderCache numComputedTokens numScheduledTokens fs
      else do
        let mmHash := f.identifier
        pyAssert (encoderCache mmHash) s!"Encoder cache miss for {mmHash}."
        let rest ← gatherMmEmbeddings encoderCache numComputedTokens numScheduledTokens fs
        return (mmHash, first, last) :: rest
end TailBlend
