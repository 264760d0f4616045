import Mathlib.Algebra.GroupWithZero.Nat
import TailBlend.Lib.TextSearch

/-! The thinking budget: the state of a row, its update from the sampled tokens and the tokens that
are forced on the logits. -/
namespace TailBlend.ThinkingBudget
variable {τ : Type} [DecidableEq τ]

/-- The token sequences that start and end a thinking section. -/
structure Markers (τ : Type) where
  thinkStartTokenIds : List τ
  thinkEndTokenIds : List τ

def findLastSequenceIndex (targetList tokenIds : List τ) : Int :=
  if tokenIds = [] then -1
  else
    match (List.range (targetList.length + 1 - tokenIds.length)).reverse.find?
      (fun i => decide ((targetList.drop i).take tokenIds.length = tokenIds)) with
    | some i => i
    | none => -1

structure Entry (τ : Type) where
  inThink : Bool
  inEnd : Bool
  checkCountDown : Int
  thinkCount : Int
  endCount : Nat
  promptTokIds : Option (List τ)
  outputTokIds : List τ
  thinkingTokenBudget : Int
  prevOutputLength : Nat
  specTokenIds : List τ
  forceIndex : List Nat
  startThinking : Int
  endThinking : Int
  inSpecMode : Bool
  bonusTokenForced : Bool
  continueThinking : Bool

variable (m : Markers τ)

def Markers.opens : Option (List τ) → Bool
  | none => false
  | some prompt => findLastSequenceIndex prompt m.thinkStartTokenIds >
      findLastSequenceIndex prompt m.thinkEndTokenIds

/-- The number of tokens of the prompt behind its last start marker. -/
def Markers.promptThinkCount (prompt : List τ) : Int :=
  prompt.length -
    (findLastSequenceIndex prompt m.thinkStartTokenIds + m.thinkStartTokenIds.length)

def Markers.initStateEntry (promptTokIds : Option (List τ)) (thinkingTokenBudget : Int) : Entry τ :=
  let inThink := m.opens promptTokIds
  let thinkCount := if inThink then m.promptThinkCount (promptTokIds.getD []) else 0
  { inThink := inThink
    inEnd := inThink && decide (thinkingTokenBudget - thinkCount ≤ 0)
    checkCountDown := thinkingTokenBudget - thinkCount
    thinkCount := thinkCount
    endCount := 0
    promptTokIds := promptTokIds
    outputTokIds := []
    thinkingTokenBudget := thinkingTokenBudget
    prevOutputLength := 0
    specTokenIds := []
    forceIndex := []
    startThinking := if inThink then (promptTokIds.getD []).length - thinkCount - 1 else -1
    endThinking := -1
    inSpecMode := false
    bonusTokenForced := false
    continueThinking := inThink }

namespace Entry

variable (s : Entry τ)

def locate : Entry τ :=
  { s with
    startThinking := if s.startThinking = -1 then
      findLastSequenceIndex s.outputTokIds m.thinkStartTokenIds else s.startThinking
    endThinking := if s.endThinking = -1 then
      findLastSequenceIndex s.outputTokIds m.thinkEndTokenIds else s.endThinking }

def sampledTokensFromPreviousStep : Int :=
  if s.continueThinking then s.outputTokIds.length - s.prevOutputLength
  else if s.prevOutputLength = 0 then s.outputTokIds.length - m.thinkStartTokenIds.length
  else s.outputTokIds.length - s.prevOutputLength

/-- The place in the draft tokens from which the end marker is forced. -/
def forcePlace (remainingBudget : Int) (specLen : Nat) : Nat :=
  if 0 < remainingBudget ∧ remainingBudget < specLen then remainingBudget.toNat
  else if remainingBudget ≤ 0 then 0
  else specLen

/-- A forced first token of the end marker was rejected. -/
def backToThink (newTokens : List τ) (s : Entry τ) : Entry τ :=
  if s.inEnd ∧ s.endCount = 0 then
    let stoppingThinking := match m.thinkEndTokenIds[s.endCount]? with
      | some t => decide (t ∈ newTokens)
      | none => false
    if stoppingThinking then s
    else { s with inThink := true, inEnd := false, endCount := 0, bonusTokenForced := false }
  else s

def absoluteEndPos : Int :=
  if s.continueThinking ∧ -1 < s.endThinking then
    s.endThinking + (s.promptTokIds.getD []).length
  else s.endThinking

/-- Whether the section is open, and its number of tokens. -/
def countThinking : Bool × Int :=
  let startLen : Int := m.thinkStartTokenIds.length
  let currentLength : Int := s.outputTokIds.length
  if 0 ≤ s.startThinking ∧ 0 ≤ s.absoluteEndPos then
    if s.absoluteEndPos < s.startThinking then
      (true, currentLength - (s.startThinking + startLen))
    else (false, 0)
  else if 0 ≤ s.startThinking ∧ s.continueThinking = false then
    (true, currentLength - (s.startThinking + startLen))
  else if 0 ≤ s.absoluteEndPos then (false, 0)
  else if s.inThink then
    (true, currentLength + ((s.promptTokIds.getD []).length - (s.startThinking + startLen)))
  else (s.inThink, s.thinkCount)

/-- The part of `_update_think_state` for a row that is not forced. -/
def thinkMode : Entry τ :=
  let (inThink, thinkCount) := s.countThinking m
  let s := { s with
    inThink := inThink
    thinkCount := thinkCount
    checkCountDown := if inThink then max 0 (s.thinkingTokenBudget - thinkCount)
      else s.thinkingTokenBudget }
  let totalThinkingTokens : Int := s.thinkCount + s.specTokenIds.length + 1
  if s.inThink ∧ s.thinkingTokenBudget < totalThinkingTokens then
    { s with
      inThink := false
      inEnd := true
      endCount := 0
      checkCountDown := s.thinkingTokenBudget
      forceIndex := [forcePlace (s.thinkingTokenBudget - s.thinkCount) s.specTokenIds.length] }
  else s

def matchDrafts (thinkEndTokenIds : List τ) : Nat → List τ → Nat → Nat × List Nat
  | _, [], endCount => (endCount, [])
  | i, token :: tokens, endCount =>
    if endCount + 1 < thinkEndTokenIds.length then
      if thinkEndTokenIds[endCount + 1]? = some token then
        matchDrafts thinkEndTokenIds (i + 1) tokens (endCount + 1)
      else (endCount + 1, [i])
    else matchDrafts thinkEndTokenIds (i + 1) tokens (endCount + 1)

/-- The part of `_update_think_state` for a row that is forced. -/
def endMode : Entry τ :=
  let (endCount, forceIndex) :=
    if 0 < s.specTokenIds.length then
      let (endCount, forceIndex) := matchDrafts m.thinkEndTokenIds 0 s.specTokenIds s.endCount
      if forceIndex = [] then (endCount + 1, [s.specTokenIds.length]) else (endCount, forceIndex)
    else (s.endCount + 1, [0])
  let s := { s with endCount := endCount, forceIndex := forceIndex }
  if m.thinkEndTokenIds.length ≤ s.endCount then
    { s with inEnd := false, endCount := 0, checkCountDown := s.thinkingTokenBudget }
  else s

/-- What follows for new output tokens when the countdown has ended. -/
def advance : Entry τ :=
  let newTokens := s.outputTokIds.drop s.prevOutputLength
  let s := backToThink m newTokens { s with prevOutputLength := s.outputTokIds.length }
  if s.inEnd = false then s.thinkMode m else s.endMode m

/-- What `_update_think_state` does once the start marker is found. -/
def countDown : Entry τ :=
  let currentStepCountdown := s.checkCountDown - s.sampledTokensFromPreviousStep m
  let predictedCountdown := currentStepCountdown - s.specTokenIds.length - 1
  if s.inEnd = false ∧ 0 ≤ predictedCountdown ∧ -1 < s.startThinking then
    { s with
      checkCountDown := currentStepCountdown
      prevOutputLength := s.outputTokIds.length }
  else if s.outputTokIds = [] then
    -- the budget was spent in the prompt
    if s.inEnd then { s with forceIndex := [0] } else s
  else if s.outputTokIds.length ≤ s.prevOutputLength then
    if s.inEnd then
      { s with forceIndex := [if 0 < s.specTokenIds.length then
          forcePlace (s.thinkingTokenBudget - s.thinkCount) s.specTokenIds.length
        else 0] }
    else s
  else s.advance m

def updateThinkState : Entry τ :=
  if s.thinkingTokenBudget = -1 then s
  else if m.thinkEndTokenIds = [] then
    { s with thinkingTokenBudget := -1, inEnd := false, forceIndex := [] }
  else
    let s := s.locate m
    if s.startThinking = -1 then s else s.countDown m

/-- The part of `update_state` for a row. -/
def refresh (inSpecMode : Bool) (outputTokIds specTokenIds : List τ) (s : Entry τ) : Entry τ :=
  let stripped :=
    if 0 < specTokenIds.length ∧ specTokenIds.length ≤ outputTokIds.length then
      outputTokIds.take (outputTokIds.length - specTokenIds.length)
    else outputTokIds
  updateThinkState m { s with
    outputTokIds := stripped
    specTokenIds := specTokenIds
    inSpecMode := inSpecMode
    forceIndex := [] }

def applyForcing (predictBonusToken : Bool) (s : Entry τ) : Entry τ × List (Nat × τ) :=
  if s.inEnd = false then (s, [])
  else if predictBonusToken ∧ (∃ f ∈ s.forceIndex.head?, f < s.specTokenIds.length) then (s, [])
  else
    let s := if predictBonusToken then { s with forceIndex := [0] } else s
    let s := if 0 < s.endCount then { s with bonusTokenForced := false } else s
    if s.bonusTokenForced ∨ s.forceIndex = [] then (s, [])
    else
      match m.thinkEndTokenIds[s.endCount]? with
      | none => (s, [])
      | some t =>
        let forced := s.forceIndex.map (fun i => (i, t))
        if predictBonusToken then
          if 0 < s.endCount then ({ s with bonusTokenForced := false, forceIndex := [] }, forced)
          else ({ s with bonusTokenForced := true }, forced)
        else (s, forced)

end Entry

/-- The holder, without the tensors that it reuses. -/
structure StateHolder (τ : Type) where
  markers : Markers τ
  maxNumReqs : Nat
  numSpecTokens : Nat
  state : Nat → Option (Entry τ)

namespace StateHolder

def inSpecMode (h : StateHolder τ) : Bool := 0 < h.numSpecTokens

def outputRow (repeatIndices : Option (List Nat)) (seqIdx : Nat) : Option Nat :=
  match repeatIndices with
  | none => some seqIdx
  | some rpt => (List.range rpt.length).reverse.find? (fun row => rpt[row]? = some seqIdx)

def updateState (h : StateHolder τ) (outputTokenIds : List (List τ))
    (specTokenIds : Option (List (List τ))) (repeatIndices : Option (List Nat)) :
    StateHolder τ :=
  { h with
    state := fun seqIdx => (h.state seqIdx).map (fun s =>
      match (outputRow repeatIndices seqIdx).bind (fun row => outputTokenIds[row]?) with
      | none => s
      | some output => s.refresh h.markers h.inSpecMode output
          (((specTokenIds.getD [])[seqIdx]?).getD [])) }

def rowSpan (h : StateHolder τ) (predictBonusToken : Bool) (specTokenIds : List (List τ))
    (index : Nat) : Nat :=
  if h.inSpecMode then
    if predictBonusToken then 1 else ((specTokenIds[index]?).getD []).length
  else 1

def cuNumTokens (h : StateHolder τ) (predictBonusToken : Bool) (specTokenIds : List (List τ))
    (index : Nat) : Nat :=
  ((List.range index).map (h.rowSpan predictBonusToken specTokenIds)).sum

def setMask (size start : Nat) (mask : Nat → Option τ) (forced : List (Nat × τ)) :
    Nat → Option τ :=
  forced.foldl (fun mask f =>
    if start + f.1 < size then Function.update mask (start + f.1) (some f.2) else mask) mask

def applyForcingToLogits (h : StateHolder τ) (predictBonusToken : Bool)
    (specTokenIds : List (List τ)) (numLogits : Nat) : StateHolder τ × (Nat → Option τ) :=
  let size := min (h.maxNumReqs * (h.numSpecTokens + 1)) numLogits
  (List.range h.maxNumReqs).foldl (fun acc index =>
    match acc.1.state index with
    | none => acc
    | some s =>
      let (s, forced) := s.applyForcing h.markers predictBonusToken
      ({ acc.1 with state := Function.update acc.1.state index (some s) },
        setMask size (h.cuNumTokens predictBonusToken specTokenIds index) acc.2 forced))
    (h, fun _ => none)

end StateHolder
end TailBlend.ThinkingBudget
