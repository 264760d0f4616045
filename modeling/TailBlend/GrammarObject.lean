import TailBlend.Lib.Py

/-! Grammar objects: `StructuredOutputGrammar` as its callers use it, and `XgrammarGrammar`. -/
namespace TailBlend.Grammar
variable {γ σ : Type}

abbrev Mask := Int → Bool

def fullMask : Mask := fun _ => true

/-- The methods of a grammar object with states `γ`. `acceptTokens` gives the object after a
call that returned `True`; no caller uses an object that refused a token. -/
structure Backend (γ : Type) where
  acceptTokens : γ → List Int → Option γ
  validateTokens : γ → List Int → List Int × γ
  rollback : γ → Nat → γ
  isTerminated : γ → Bool
  bitmask : γ → Mask

namespace Backend

def advance (b : Backend γ) : γ → List Int → Option γ
  | g, [] => some g
  | g, token :: tokens => (b.acceptTokens g [token]).bind fun g => b.advance g tokens

/-- `rollback(k)` undoes the last `k` accepted tokens, and what has terminated stays so. -/
structure Lawful (b : Backend γ) : Prop where
  undoes : ∀ g tokens g', b.advance g tokens = some g' → b.rollback g' tokens.length = g
  stays : ∀ g token g', b.isTerminated g = true → b.acceptTokens g [token] = some g' →
    b.isTerminated g' = true

theorem advance_cons {b : Backend γ} {g g' : γ} {token : Int}
    (h : b.acceptTokens g [token] = some g') (tokens : List Int) :
    b.advance g (token :: tokens) = b.advance g' tokens := by
  rw [advance, h]
  rfl

end Backend

/-- `xgr.GrammarMatcher`: what one token does to its state, the states in which it has
terminated, and the tokens it allows next. A matcher that has terminated accepts no token. -/
structure Matcher (σ : Type) where
  next : σ → Int → Option σ
  isTerminated : σ → Bool
  allowed : σ → Mask
  next_terminated : ∀ s token, isTerminated s = true → next s token = none

/-- The matcher of a grammar object: its state, and the states before each accepted token. -/
structure MatcherState (σ : Type) where
  state : σ
  past : List σ

namespace MatcherState

def acceptToken (m : Matcher σ) (s : MatcherState σ) (token : Int) : Option (MatcherState σ) :=
  (m.next s.state token).map fun next => ⟨next, s.state :: s.past⟩

def rollback (s : MatcherState σ) : Nat → MatcherState σ
  | 0 => s
  | k + 1 => match s.past with
    | [] => s
    | state :: past => rollback ⟨state, past⟩ k

def acceptWhile (m : Matcher σ) (s : MatcherState σ) : List Int → List Int × MatcherState σ
  | [] => ([], s)
  | token :: tokens => match s.acceptToken m token with
    | none => ([], s)
    | some s => ((acceptWhile m s tokens).map (token :: ·) id)

def acceptAll (m : Matcher σ) (s : MatcherState σ) : List Int → Option (MatcherState σ)
  | [] => some s
  | token :: tokens => (s.acceptToken m token).bind fun s => acceptAll m s tokens

variable {s s' : MatcherState σ}

theorem rollback_acceptToken {m : Matcher σ} {token : Int} (h : s.acceptToken m token = some s') :
    s'.rollback 1 = s := by
  obtain ⟨next, -, rfl⟩ := Option.map_eq_some_iff.mp h
  rfl

theorem rollback_add (s : MatcherState σ) (j k : Nat) :
    s.rollback (j + k) = (s.rollback j).rollback k := by
  induction j generalizing s with
  | zero => rw [Nat.zero_add]; rfl
  | succ j ih =>
    obtain ⟨state, past⟩ := s
    rw [Nat.succ_add]
    cases past with
    | nil => cases k <;> rfl
    | cons s past => exact ih _

theorem rollback_acceptAll {m : Matcher σ} {tokens : List Int}
    (h : s.acceptAll m tokens = some s') : s'.rollback tokens.length = s := by
  induction tokens generalizing s with
  | nil => cases h; rfl
  | cons token tokens ih =>
    obtain ⟨mid, hmid, hrest⟩ := Option.bind_eq_some_iff.mp h
    rw [List.length_cons, rollback_add, ih hrest]
    exact rollback_acceptToken hmid

theorem acceptWhile_all (m : Matcher σ) (s : MatcherState σ) (tokens : List Int) :
    s.acceptAll m (s.acceptWhile m tokens).1 = some (s.acceptWhile m tokens).2 := by
  induction tokens generalizing s with
  | nil => rfl
  | cons token tokens ih =>
    rw [acceptWhile]
    cases hs : s.acceptToken m token with
    | none => rfl
    | some s' =>
      rw [Prod.map_fst, acceptAll, hs]
      exact ih s'

end MatcherState

structure XgrammarGrammar (σ : Type) where
  matcher : MatcherState σ
  numProcessedTokens : Int
  isTerminated : Bool

namespace XgrammarGrammar

def acceptLoop (m : Matcher σ) (g : XgrammarGrammar σ) : List Int → Bool × XgrammarGrammar σ
  | [] => (true, { g with isTerminated := m.isTerminated g.matcher.state })
  | token :: tokens => match g.matcher.acceptToken m token with
    | none => (false, g)
    | some s => acceptLoop m { g with matcher := s, numProcessedTokens := g.numProcessedTokens + 1 }
        tokens

def acceptTokens (m : Matcher σ) (g : XgrammarGrammar σ) (tokens : List Int) :
    Bool × XgrammarGrammar σ :=
  if g.isTerminated then (false, g) else g.acceptLoop m tokens

def validateTokens (m : Matcher σ) (g : XgrammarGrammar σ) (tokens : List Int) :
    List Int × XgrammarGrammar σ :=
  let accepted := g.matcher.acceptWhile m tokens
  (accepted.1, { g with matcher := accepted.2.rollback accepted.1.length })

def rollback (m : Matcher σ) (g : XgrammarGrammar σ) (numTokens : Nat) : XgrammarGrammar σ :=
  let s := g.matcher.rollback numTokens
  { matcher := s, numProcessedTokens := g.numProcessedTokens - numTokens,
    isTerminated := m.isTerminated s.state }

def moved (m : Matcher σ) (g : XgrammarGrammar σ) (s : MatcherState σ) (k : Nat) :
    XgrammarGrammar σ :=
  { matcher := s, numProcessedTokens := g.numProcessedTokens + k,
    isTerminated := m.isTerminated s.state }

theorem acceptLoop_eq (m : Matcher σ) (g : XgrammarGrammar σ) (tokens : List Int) :
    (∃ s, g.matcher.acceptAll m tokens = some s ∧
      g.acceptLoop m tokens = (true, g.moved m s tokens.length)) ∨
    (g.matcher.acceptAll m tokens = none ∧ (g.acceptLoop m tokens).1 = false) := by
  induction tokens generalizing g with
  | nil =>
    refine .inl ⟨g.matcher, rfl, ?_⟩
    simp [acceptLoop, moved]
  | cons token tokens ih =>
    rw [MatcherState.acceptAll, acceptLoop]
    cases hs : g.matcher.acceptToken m token with
    | none => exact .inr ⟨rfl, rfl⟩
    | some s =>
      rcases ih { g with matcher := s, numProcessedTokens := g.numProcessedTokens + 1 } with
        ⟨s', hall, hloop⟩ | ⟨hall, hloop⟩
      · refine .inl ⟨s', hall, ?_⟩
        simp only [hloop, moved, List.length_cons]
        congr 2
        omega
      · exact .inr ⟨hall, hloop⟩

end XgrammarGrammar

/-- A grammar object whose flag agrees with its matcher, as after `__init__` and after every call
except an `accept_tokens` that returned `False`. -/
structure SyncedGrammar (m : Matcher σ) extends XgrammarGrammar σ where
  synced : isTerminated = m.isTerminated matcher.state

namespace SyncedGrammar
variable {m : Matcher σ}

variable {g : SyncedGrammar m} {tokens : List Int}

@[ext]
theorem ext {g' : SyncedGrammar m} (h : g.toXgrammarGrammar = g'.toXgrammarGrammar) : g = g' := by
  cases g
  cases h
  rfl

def moved (g : SyncedGrammar m) (s : MatcherState σ) (k : Nat) : SyncedGrammar m :=
  ⟨g.toXgrammarGrammar.moved m s k, rfl⟩

theorem accepted_synced (g : SyncedGrammar m)
    (h : (g.acceptTokens m tokens).1 = true) :
    (g.acceptTokens m tokens).2.isTerminated =
      m.isTerminated (g.acceptTokens m tokens).2.matcher.state := by
  unfold XgrammarGrammar.acceptTokens at h ⊢
  split_ifs at h ⊢ with ht
  rcases g.toXgrammarGrammar.acceptLoop_eq m tokens with ⟨s, -, hs⟩ | ⟨-, hs⟩
  · rw [hs]
    rfl
  · rw [hs] at h
    cases h

def acceptTokens (g : SyncedGrammar m) (tokens : List Int) : Option (SyncedGrammar m) :=
  if h : (g.toXgrammarGrammar.acceptTokens m tokens).1 = true then
    some ⟨(g.toXgrammarGrammar.acceptTokens m tokens).2, g.accepted_synced h⟩
  else none

theorem moved_zero (g : SyncedGrammar m) : g.moved g.matcher 0 = g := by
  obtain ⟨⟨s, n, t⟩, hsync⟩ := g
  obtain rfl : t = m.isTerminated s.state := hsync
  simp [moved, XgrammarGrammar.moved]

theorem moved_moved (g : SyncedGrammar m) (s s' : MatcherState σ) (j k : Nat) :
    (g.moved s j).moved s' k = g.moved s' (j + k) := by
  apply SyncedGrammar.ext
  simp only [moved, XgrammarGrammar.moved]
  congr 1
  omega

theorem acceptToken_terminated (h : g.isTerminated = true) (token : Int) :
    g.matcher.acceptToken m token = none := by
  rw [MatcherState.acceptToken, m.next_terminated _ _ (g.synced ▸ h)]
  rfl

theorem acceptTokens_eq (g : SyncedGrammar m) (hne : tokens ≠ []) :
    g.acceptTokens tokens = (g.matcher.acceptAll m tokens).map (g.moved · tokens.length) := by
  by_cases ht : g.isTerminated = true
  · obtain ⟨token, rest, rfl⟩ := List.exists_cons_of_ne_nil hne
    have hleft : g.toXgrammarGrammar.acceptTokens m (token :: rest) =
        (false, g.toXgrammarGrammar) := if_pos ht
    rw [MatcherState.acceptAll, acceptToken_terminated ht, acceptTokens, dif_neg (by simp [hleft])]
    rfl
  have hloop : g.toXgrammarGrammar.acceptTokens m tokens =
      g.toXgrammarGrammar.acceptLoop m tokens := if_neg ht
  rcases g.toXgrammarGrammar.acceptLoop_eq m tokens with ⟨s, hall, hs⟩ | ⟨hall, hs⟩
  · rw [hall, acceptTokens]
    simp only [hloop, hs]
    rfl
  · rw [hall, acceptTokens, dif_neg (by rw [hloop, hs]; simp)]
    rfl

theorem acceptTokens_singleton (g : SyncedGrammar m) (token : Int) :
    g.acceptTokens [token] = (g.matcher.acceptToken m token).map (g.moved · 1) := by
  rw [acceptTokens_eq g (List.cons_ne_nil _ _)]
  simp [MatcherState.acceptAll]

def validateTokens (g : SyncedGrammar m) (tokens : List Int) : List Int × SyncedGrammar m :=
  ((g.toXgrammarGrammar.validateTokens m tokens).1,
    ⟨(g.toXgrammarGrammar.validateTokens m tokens).2, by
      have hback : (g.toXgrammarGrammar.validateTokens m tokens).2.matcher = g.matcher :=
        MatcherState.rollback_acceptAll (MatcherState.acceptWhile_all m g.matcher tokens)
      rw [hback]
      exact g.synced⟩)

def rollback (g : SyncedGrammar m) (numTokens : Nat) : SyncedGrammar m :=
  ⟨g.toXgrammarGrammar.rollback m numTokens, rfl⟩

theorem rollback_moved (g : SyncedGrammar m) {s : MatcherState σ} {k : Nat}
    (h : s.rollback k = g.matcher) : (g.moved s k).rollback k = g := by
  conv_rhs => rw [← g.moved_zero]
  simp [rollback, XgrammarGrammar.rollback, moved, XgrammarGrammar.moved, h]

end SyncedGrammar

def xgrammar (m : Matcher σ) : Backend (SyncedGrammar m) where
  acceptTokens := SyncedGrammar.acceptTokens
  validateTokens := SyncedGrammar.validateTokens
  rollback := SyncedGrammar.rollback
  isTerminated g := g.isTerminated
  bitmask g := m.allowed g.matcher.state

theorem xgrammar_advance (m : Matcher σ) (g : SyncedGrammar m) (tokens : List Int) :
    (xgrammar m).advance g tokens =
      (g.matcher.acceptAll m tokens).map (g.moved · tokens.length) := by
  induction tokens generalizing g with
  | nil => exact congrArg some g.moved_zero.symm
  | cons token tokens ih =>
    have hone : (xgrammar m).acceptTokens g [token] =
        (g.matcher.acceptToken m token).map (g.moved · 1) := g.acceptTokens_singleton token
    rw [Backend.advance, hone, MatcherState.acceptAll]
    cases g.matcher.acceptToken m token with
    | none => rfl
    | some s =>
      simp only [Option.map_some, Option.bind_some]
      rw [ih (g.moved s 1)]
      simp only [SyncedGrammar.moved_moved, Nat.add_comm 1]
      rfl

theorem xgrammar_lawful (m : Matcher σ) : (xgrammar m).Lawful where
  undoes g tokens g' h := by
    rw [xgrammar_advance] at h
    obtain ⟨s, hs, rfl⟩ := Option.map_eq_some_iff.mp h
    exact g.rollback_moved (MatcherState.rollback_acceptAll hs)
  stays g token g' h hacc := by
    have hone : (xgrammar m).acceptTokens g [token] = _ := g.acceptTokens_singleton token
    rw [SyncedGrammar.acceptToken_terminated h, hacc] at hone
    cases hone

end TailBlend.Grammar
