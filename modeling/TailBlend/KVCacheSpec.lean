import TailBlend.Lib.Py

/-! Cache specifications of the layer groups. -/
namespace TailBlend

inductive MambaCacheMode where
  | none
  | align
  | all
  deriving DecidableEq, Repr

/-- The concrete classes below `FullAttentionSpec`. -/
inductive FullAttentionClass where
  | full
  | tq
  | mla
  deriving DecidableEq, Repr

inductive SpecKind where
  | fullAttention (cls : FullAttentionClass)
  | slidingWindow (slidingWindow : Nat)
  | chunkedLocal (attentionChunkSize : Nat)
  | mamba (mode : MambaCacheMode) (numSpeculativeBlocks : Nat)
  | crossAttention
  deriving DecidableEq, Repr

namespace SpecKind

def Valid : SpecKind → Prop
  | slidingWindow w => 0 < w
  | chunkedLocal c => 0 < c
  | _ => True

instance (k : SpecKind) : Decidable k.Valid := by
  unfold Valid
  split <;> infer_instance

def isFullAttention : SpecKind → Bool
  | fullAttention _ => true
  | _ => false

def isMamba : SpecKind → Bool
  | mamba _ _ => true
  | _ => false

end SpecKind

/-- The sizes behind `page_size_bytes`, and one number for the remaining fields, which
are only ever compared for equality. -/
structure SpecLayout where
  bytesPerToken : Nat
  compressRatio : Nat
  stateBytes : Nat
  pageSizePadded : Option Nat
  variant : Nat
  deriving DecidableEq, Repr

structure KVCacheSpec where
  kind : SpecKind
  blockSize : Nat
  layout : SpecLayout
  blockSize_pos : 0 < blockSize
  kind_valid : kind.Valid
  deriving DecidableEq

namespace KVCacheSpec

def maxAdmissionBlocksPerRequest (spec : KVCacheSpec) (maxNumBatchedTokens maxModelLen : Int) :
    Option Int :=
  match spec.kind with
  | .slidingWindow w =>
    some (cdiv (min (w - 1 + maxNumBatchedTokens) maxModelLen) spec.blockSize + 1)
  | .chunkedLocal c => some (cdiv (min (c + maxNumBatchedTokens) maxModelLen) spec.blockSize)
  | _ => none

/-- Tokens no later position attends to once `numComputedTokens` are computed. -/
def getNumSkippedTokens (spec : KVCacheSpec) (numComputedTokens : Int) : Int :=
  match spec.kind with
  | .slidingWindow w => max 0 (numComputedTokens - w + 1)
  | .chunkedLocal c => numComputedTokens / c * c
  | .mamba _ _ => numComputedTokens - 1
  | .fullAttention _ => 0
  | .crossAttention => 0

theorem getNumSkippedTokens_le (spec : KVCacheSpec) {n : Int} (hn : 0 ≤ n) :
    spec.getNumSkippedTokens n ≤ n := by
  have hv := spec.kind_valid
  unfold getNumSkippedTokens
  cases hk : spec.kind with
  | slidingWindow w =>
    rw [hk] at hv
    have : 0 < w := hv
    simp only
    omega
  | chunkedLocal c =>
    rw [hk] at hv
    have hc : (0 : Int) < c := by exact_mod_cast (hv : 0 < c)
    exact Int.ediv_mul_le n hc.ne'
  | mamba mode k =>
    simp only
    omega
  | fullAttention cls => exact hn
  | crossAttention => exact hn

end KVCacheSpec
end TailBlend
