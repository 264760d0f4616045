import TailBlend.Lib.Py
import TailBlend.Lib.TextSearch

/-! Incremental detokenization: the text of the output tokens, the check for stop strings and the
text that is held back from a stream. -/
namespace TailBlend
open TextSearch List

abbrev Text := List Char

/-- The matched stop string and the length to truncate to, if any. -/
def checkStopStrings (outputText : Text) (newCharCount : Nat) (stop : List Text)
    (includeInOutput : Bool) : Option (Text × Option Nat) :=
  if newCharCount = 0 ∨ stop = [] then none
  else stop.findSome? (fun stopStr =>
    -- text that was searched before is not searched again
    let start := pyBound outputText.length (1 - newCharCount - stopStr.length)
    (findFrom outputText stopStr start).map (fun stopIndex =>
      if includeInOutput then
        if stopIndex + stopStr.length ≥ outputText.length then (stopStr, none)
        else (stopStr, some (stopIndex + stopStr.length))
      else (stopStr, some stopIndex)))

/-- The fields of the sampling parameters about stop strings; an empty one is refused there. -/
structure StopParams where
  stop : List Text
  minTokens : Nat
  includeStopStrInOutput : Bool
  stop_ne_nil : ∀ s ∈ stop, s ≠ []

/-- `BaseIncrementalDetokenizer` over the output tokens. `decodeNext` is the text that a token adds
behind the tokens before it; without a tokenizer no token adds text. -/
structure Detokenizer (τ : Type) where
  decodeNext : List τ → τ → Text
  params : StopParams
  tokenIds : List τ
  outputText : Text
  lastOutputTextOffset : Nat

namespace Detokenizer
variable {τ : Type}

def init (decodeNext : List τ → τ → Text) (params : StopParams) : Detokenizer τ where
  decodeNext := decodeNext
  params := params
  tokenIds := []
  outputText := []
  lastOutputTextOffset := 0

section
variable (d : Detokenizer τ)

/-- Characters held back from a stream when stop strings are excluded. -/
def stopBufferLength : Nat :=
  if d.params.stop ≠ [] ∧ d.params.includeStopStrInOutput = false then
    (d.params.stop.map List.length).foldr max 0 - 1
  else 0

def append (t : τ) : Detokenizer τ :=
  { d with
    tokenIds := d.tokenIds ++ [t]
    outputText := d.outputText ++ d.decodeNext d.tokenIds t }

/-- The loop body of `update`, with `stop_check_offset`. -/
def detokenize (x : Detokenizer τ × Nat) (t : τ) : Detokenizer τ × Nat :=
  let d := x.1.append t
  if d.params.minTokens ≠ 0 ∧ d.tokenIds.length ≤ d.params.minTokens then (d, d.outputText.length)
  else (d, x.2)

def checkStop (stopCheckOffset : Nat) : Detokenizer τ × Option Text :=
  if d.params.stop ≠ [] ∧ d.tokenIds.length > d.params.minTokens then
    match checkStopStrings d.outputText (d.outputText.length - stopCheckOffset) d.params.stop
      d.params.includeStopStrInOutput with
    | none => (d, none)
    | some (stopString, none) => (d, some stopString)
    | some (stopString, some truncateTo) =>
      ({ d with outputText := d.outputText.take truncateTo }, some stopString)
  else (d, none)

def update (newTokenIds : List τ) (stopTerminated : Bool) : Detokenizer τ × Option Text :=
  match newTokenIds.getLast? with
  | none => (d, none)
  | some last =>
    if stopTerminated ∧ d.params.includeStopStrInOutput = false then
      -- the stop token is recorded but not detokenized
      let (d, offset) := newTokenIds.dropLast.foldl detokenize (d, d.outputText.length)
      checkStop { d with tokenIds := d.tokenIds ++ [last] } offset
    else
      let (d, offset) := newTokenIds.foldl detokenize (d, d.outputText.length)
      checkStop d offset

def getNextOutputText (finished delta : Bool) : Detokenizer τ × Text :=
  let bufferLength := if finished then 0 else d.stopBufferLength
  if delta then
    let length := (d.outputText.length : Int) - bufferLength
    if (d.lastOutputTextOffset : Int) < length then
      ({ d with lastOutputTextOffset := length.toNat },
        (d.outputText.take length.toNat).drop d.lastOutputTextOffset)
    else (d, [])
  else if bufferLength = 0 then (d, d.outputText)
  else (d, pySlice d.outputText 0 (-bufferLength))

/-! What one update does -/

def grow (ts : List τ) : Detokenizer τ := ts.foldl append d

end

variable (d : Detokenizer τ)

@[simp] theorem grow_nil : d.grow [] = d := rfl

theorem grow_append (xs ys : List τ) : d.grow (xs ++ ys) = (d.grow xs).grow ys := foldl_append

section
variable (ts : List τ)
include ts

@[simp] theorem grow_params : (d.grow ts).params = d.params := by
  induction ts generalizing d with
  | nil => rfl
  | cons t ts ih => exact ih (d.append t)

@[simp] theorem grow_offset :
    (d.grow ts).lastOutputTextOffset = d.lastOutputTextOffset := by
  induction ts generalizing d with
  | nil => rfl
  | cons t ts ih => exact ih (d.append t)

@[simp] theorem grow_tokenIds : (d.grow ts).tokenIds = d.tokenIds ++ ts := by
  induction ts generalizing d with
  | nil => simp
  | cons t ts ih =>
    refine (ih (d.append t)).trans ?_
    simp [append]

theorem outputText_prefix_grow : d.outputText <+: (d.grow ts).outputText := by
  induction ts generalizing d with
  | nil => exact prefix_refl _
  | cons t ts ih => exact (prefix_append _ _).trans (ih (d.append t))

theorem text_length_mono :
    d.outputText.length ≤ (d.grow ts).outputText.length :=
  (d.outputText_prefix_grow ts).length_le

end

def minPart (d : Detokenizer τ) (ts : List τ) : List τ :=
  ts.take (d.params.minTokens - d.tokenIds.length)

theorem foldl_detokenize (ts : List τ) :
    ts.foldl detokenize (d, d.outputText.length) =
      (d.grow ts, (d.grow (d.minPart ts)).outputText.length) := by
  induction ts using reverseRecOn with
  | nil => simp [minPart]
  | append_singleton ts t ih =>
    rw [foldl_append, ih, foldl_cons, foldl_nil, detokenize]
    have hgrow : (d.grow ts).append t = d.grow (ts ++ [t]) := by
      rw [grow_append]
      rfl
    simp only [hgrow, grow_params, grow_tokenIds, length_append, length_singleton]
    unfold minPart
    split_ifs with h
    · rw [take_of_length_le (by simp; omega)]
    · rw [take_append_of_le_length (by omega)]

end Detokenizer
end TailBlend
