import TailBlend.Lib.Py
import Mathlib.Data.List.Nodup
import Mathlib.Data.List.Range

/-! Block hashes as free terms over the hashed tuple, so that two hashes are equal
exactly when their inputs are, and the hash list at a coarser block size. -/
namespace TailBlend
open List

abbrev EmbedRow := List Int

inductive ExtraKey where
  /-- A LoRA name or a cache salt: both are plain strings. -/
  | text (s : String)
  | mm (identifier : String) (offset : Int)
  /-- The digest of some rows of the prompt embeddings. -/
  | digest (rows : List EmbedRow)
  deriving DecidableEq, Repr

/-- `hash_block_tokens(parent, tokens, extra_keys)`; `noneHash` is `NONE_HASH`. -/
inductive BlockHash where
  | noneHash
  | block (parent : BlockHash) (tokens : List Int) (extraKeys : List ExtraKey)
  deriving DecidableEq, Repr

namespace BlockHash

def depth : BlockHash → Nat
  | noneHash => 0
  | block parent _ _ => parent.depth + 1

/-- Each hash takes its predecessor as parent, the first one `parent`. -/
def Chained (parent : BlockHash) : List BlockHash → Prop
  | [] => True
  | h :: hs => (∃ tokens extraKeys, h = block parent tokens extraKeys) ∧ Chained h hs

variable {parent : BlockHash} {hs : List BlockHash}

theorem depth_of_chained (h : Chained parent hs) (i : Nat) (hi : i < hs.length) :
    hs[i].depth = parent.depth + i + 1 := by
  induction hs generalizing parent i with
  | nil => simp at hi
  | cons x xs ih =>
    obtain ⟨⟨tokens, extraKeys, rfl⟩, hxs⟩ := h
    cases i with
    | zero => simp [depth]
    | succ j =>
      have := ih hxs j (by simpa using hi)
      simp only [getElem_cons_succ, this, depth]
      omega

theorem nodup_of_chained (h : Chained parent hs) : hs.Nodup := by
  rw [nodup_iff_injective_getElem]
  intro i j hij
  have hi := depth_of_chained h i i.2
  have hj := depth_of_chained h j j.2
  have hd : hs[i.1].depth = hs[j.1].depth := congrArg depth hij
  omega

theorem chained_append {ks : List BlockHash} :
    Chained parent (hs ++ ks) ↔ Chained parent hs ∧ Chained (hs.getLastD parent) ks := by
  induction hs generalizing parent with
  | nil => simp [Chained]
  | cons x xs ih => simp only [cons_append, Chained, ih, getLastD_cons, and_assoc]

def uniform (tokens : List Int) : Nat → BlockHash → List BlockHash
  | 0, _ => []
  | n + 1, parent => block parent tokens [] :: uniform tokens n (block parent tokens [])

theorem chained_uniform (tokens : List Int) (n : Nat) (parent : BlockHash) :
    Chained parent (uniform tokens n parent) := by
  induction n generalizing parent with
  | zero => trivial
  | succ n ih => exact ⟨⟨tokens, [], rfl⟩, ih _⟩

end BlockHash

/-- A hash at the granularity of one group (the concatenation of the hashes it spans)
with the id of the group. -/
abbrev BlockKey := List BlockHash × Nat

/-- `BlockHashListWithBlockSize`: `block_hashes` itself when the sizes agree, else
the concatenation of `scale` neighbours. -/
def hashesAt (hashes : List BlockHash) (hashBlockSize blockSize : Nat) : List (List BlockHash) :=
  let scale := blockSize / hashBlockSize
  (List.range (hashes.length / scale)).map (fun i => (hashes.drop (i * scale)).take scale)

theorem length_hashesAt (hashes : List BlockHash) (hashBlockSize blockSize : Nat) :
    (hashesAt hashes hashBlockSize blockSize).length =
      hashes.length / (blockSize / hashBlockSize) := by
  simp [hashesAt]

theorem getElem_hashesAt (hashes : List BlockHash) (hashBlockSize blockSize i : Nat)
    (h : i < (hashesAt hashes hashBlockSize blockSize).length) :
    (hashesAt hashes hashBlockSize blockSize)[i] =
      (hashes.drop (i * (blockSize / hashBlockSize))).take (blockSize / hashBlockSize) := by
  simp [hashesAt]

theorem nodup_hashesAt {hashes : List BlockHash} (hn : hashes.Nodup) {hashBlockSize blockSize : Nat}
    (hs : 0 < blockSize / hashBlockSize) : (hashesAt hashes hashBlockSize blockSize).Nodup := by
  rw [nodup_iff_injective_getElem]
  intro i j hij
  simp only [getElem_hashesAt] at hij
  set scale := blockSize / hashBlockSize with hscale
  have hlen := length_hashesAt hashes hashBlockSize blockSize
  -- two chunks with the same first hash start at the same place
  have bound (k : Nat) (hk : k < hashes.length / scale) : k * scale < hashes.length := by
    have := Nat.div_mul_le_self hashes.length scale
    nlinarith
  have hi : i.1 * scale < hashes.length := bound i (hlen ▸ i.2)
  have hj : j.1 * scale < hashes.length := bound j (hlen ▸ j.2)
  have hhead := congrArg head? hij
  rw [head?_take, head?_take, if_neg hs.ne', if_neg hs.ne', head?_drop,
    head?_drop, getElem?_eq_getElem hi, getElem?_eq_getElem hj,
    Option.some_inj, hn.getElem_inj_iff] at hhead
  ext
  exact Nat.eq_of_mul_eq_mul_right hs hhead

end TailBlend
