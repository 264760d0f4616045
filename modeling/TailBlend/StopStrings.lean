import TailBlend.Detokenizer

/-! Stop strings under different splits of the same tokens into updates. -/
namespace TailBlend
open TextSearch List
namespace Detokenizer
variable {τ : Type}

def matchIn (text : Text) (lo : Nat) (stop : List Text) : Option (Text × Nat) :=
  stop.findSome? (fun s => (findFrom text s (lo + 1 - s.length)).map (fun i => (s, i)))

def cut (params : StopParams) (m : Text × Nat) : Nat :=
  if params.includeStopStrInOutput then m.2 + m.1.length else m.2

variable {text s r : Text} {lo i n : Nat} {stop : List Text} {d : Detokenizer τ} {ts c : List τ}
  {pre post : List (List τ)}

theorem matchIn_eq_none (hne : ∀ s ∈ stop, s ≠ []) :
    matchIn text lo stop = none ↔ ∀ s ∈ stop, ¬ EndsIn text s lo text.length := by
  rw [matchIn, findSome?_eq_none_iff]
  refine forall₂_congr fun s hs => ?_
  rw [Option.map_eq_none_iff, ← findFrom_window_isSome (hne s hs), Option.not_isSome_iff_eq_none]

theorem matchIn_eq_some (hne : ∀ s ∈ stop, s ≠ []) (h : matchIn text lo stop = some (s, i)) :
    ∃ l1 l2, stop = l1 ++ s :: l2 ∧ (∀ s' ∈ l1, ¬ EndsIn text s' lo text.length) ∧
      OccursAt text s i ∧ lo < i + s.length ∧
      ∀ j, lo < j + s.length → j < i → ¬ OccursAt text s j := by
  rw [matchIn, findSome?_eq_some_iff] at h
  obtain ⟨l1, s1, l2, rfl, hfind, hbefore⟩ := h
  rw [Option.map_eq_some_iff] at hfind
  obtain ⟨i1, hfind, heq⟩ := hfind
  obtain ⟨rfl, rfl⟩ := Prod.mk.inj heq
  refine ⟨l1, l2, rfl, fun s' hs' => ?_, (findFrom_window (hne s1 (by simp))).mp hfind⟩
  have hnone := hbefore s' hs'
  rw [Option.map_eq_none_iff] at hnone
  rw [← findFrom_window_isSome (hne s' (by simp [hs'])), hnone]
  simp

theorem checkStopStrings_eq (hlo : lo < text.length) (hne : ∀ s ∈ stop, s ≠ []) (b : Bool) :
    checkStopStrings text (text.length - lo) stop b = (matchIn text lo stop).map (fun m =>
      if b then
        if m.2 + m.1.length ≥ text.length then (m.1, none) else (m.1, some (m.2 + m.1.length))
      else (m.1, some m.2)) := by
  unfold checkStopStrings matchIn
  have hpos : ¬ (text.length - lo = 0) := by omega
  by_cases hnil : stop = []
  · simp [hnil]
  rw [if_neg (by simp [hpos, hnil])]
  clear hnil
  induction stop with
  | nil => rfl
  | cons s rest ih =>
    have hs := length_pos_iff.mpr (hne s (by simp))
    have hstart : pyBound text.length (1 - ((text.length - lo : Nat) : Int) - s.length) =
        lo + 1 - s.length := by
      unfold pyBound
      split_ifs <;> omega
    rw [findSome?_cons, findSome?_cons, ih (fun s' hs' => hne s' (by simp [hs']))]
    simp only [hstart]
    cases findFrom text s (lo + 1 - s.length) <;> rfl

theorem matchIn_of_length_le (h : text.length ≤ lo) (hne : ∀ s ∈ stop, s ≠ []) :
    matchIn text lo stop = none := by
  refine (matchIn_eq_none hne).mpr fun s _ => ?_
  rintro ⟨i, -, hlo, hhi⟩
  omega

theorem checkStop_eq (d : Detokenizer τ) (lo : Nat)
    (hmin : d.tokenIds.length ≤ d.params.minTokens → d.outputText.length ≤ lo) :
    d.checkStop lo = match matchIn d.outputText lo d.params.stop with
      | none => (d, none)
      | some m => ({ d with outputText := d.outputText.take (cut d.params m) }, some m.1) := by
  have hne := d.params.stop_ne_nil
  unfold checkStop
  by_cases hlt : lo < d.outputText.length
  · have hmin' : d.tokenIds.length > d.params.minTokens := by
      omega
    by_cases hstop : d.params.stop = []
    · simp [hstop, matchIn]
    rw [if_pos ⟨hstop, hmin'⟩, checkStopStrings_eq hlt hne]
    cases hm : matchIn d.outputText lo d.params.stop with
    | none => rfl
    | some m =>
      simp only [Option.map_some, cut]
      by_cases hb : d.params.includeStopStrInOutput = true
      · split_ifs with hlen
        · rw [take_of_length_le hlen]
        · rfl
      · simp only [if_neg hb]
  · have hz : d.outputText.length - lo = 0 := by omega
    rw [matchIn_of_length_le (by omega) hne]
    simp [checkStopStrings, hz]

section
variable (d : Detokenizer τ) (ts : List τ)

theorem length_le_minPart (h : d.tokenIds.length + ts.length ≤ d.params.minTokens) :
    (d.grow ts).outputText.length ≤ (d.grow (d.minPart ts)).outputText.length := by
  rw [minPart, take_of_length_le (by omega)]

/-- One update without a stop token: the text grows, and is cut at the first listed stop string
that ends behind the first `minTokens` tokens. -/
theorem update_eq :
    d.update ts false =
      match matchIn (d.grow ts).outputText (d.grow (d.minPart ts)).outputText.length
        d.params.stop with
      | none => (d.grow ts, none)
      | some m => ({ d.grow ts with
          outputText := (d.grow ts).outputText.take (cut d.params m) }, some m.1) := by
  cases hlast : ts.getLast? with
  | none =>
    rw [getLast?_eq_none_iff] at hlast
    subst hlast
    rw [matchIn_of_length_le (by simp [minPart]) d.params.stop_ne_nil]
    rfl
  | some t =>
    simp only [update, hlast, Bool.false_eq_true, false_and, if_false, foldl_detokenize]
    rw [checkStop_eq, grow_params]
    intro h
    rw [grow_params, grow_tokenIds, length_append] at h
    exact d.length_le_minPart ts h

theorem update_stopToken (t : τ) (hb : d.params.includeStopStrInOutput = false) :
    (d.update (ts ++ [t]) true).2 = (d.update ts false).2 ∧
      (d.update (ts ++ [t]) true).1.outputText = (d.update ts false).1.outputText := by
  have hlast : (ts ++ [t]).getLast? = some t := by simp
  rw [update_eq d ts]
  simp only [update, hlast, hb, dropLast_concat, foldl_detokenize]
  rw [checkStop_eq, grow_params]
  · cases matchIn (d.grow ts).outputText (d.grow (d.minPart ts)).outputText.length d.params.stop
    · exact ⟨rfl, rfl⟩
    · exact ⟨rfl, rfl⟩
  · intro h
    simp only [grow_params, grow_tokenIds, length_append] at h
    exact d.length_le_minPart ts (by omega)

theorem update_params (b : Bool) : (d.update ts b).1.params = d.params := by
  have hcheck (d : Detokenizer τ) (lo : Nat) : (d.checkStop lo).1.params = d.params := by
    unfold checkStop
    split_ifs
    · split <;> rfl
    · rfl
  unfold update
  split
  · rfl
  · split_ifs <;> simp [hcheck, foldl_detokenize]

end

/-! Runs -/

/-- The stop string and the final text of a sequence of updates, which ends with the first update
that returns a stop string. -/
def outcome (d : Detokenizer τ) : List (List τ × Bool) → Option Text × Text
  | [] => (none, d.outputText)
  | u :: us => match d.update u.1 u.2 with
    | (d, some s) => (some s, d.outputText)
    | (d, none) => outcome d us

/-- The updates of a split; a stop token ends the last one. -/
def updates : List (List τ) → Option τ → List (List τ × Bool)
  | chunks, none => chunks.map (fun c => (c, false))
  | [], some t => [([t], true)]
  | [c], some t => [(c ++ [t], true)]
  | c :: c' :: cs, some t => (c, false) :: updates (c' :: cs) (some t)

theorem updates_none (chunks : List (List τ)) :
    updates chunks none = chunks.map (fun c => (c, false)) := by
  rw [updates]

def singles (ts : List τ) : List (List τ) := ts.map (fun t => [t]) ++ [[]]

/-- The split of the detokenized tokens: a stop token counts when stop strings are included. -/
def detokenized (params : StopParams) : List (List τ) → Option τ → List (List τ)
  | chunks, none => chunks
  | [], some t => if params.includeStopStrInOutput then [[t]] else []
  | [c], some t => if params.includeStopStrInOutput then [c ++ [t]] else [c]
  | c :: c' :: cs, some t => c :: detokenized params (c' :: cs) (some t)

theorem outcome_singleton (d : Detokenizer τ) (u : List τ × Bool) :
    d.outcome [u] = ((d.update u.1 u.2).2, (d.update u.1 u.2).1.outputText) := by
  unfold outcome
  split
  · rename_i h
    rw [h]
  · rename_i h
    rw [h]
    rfl

theorem outcome_updates (d : Detokenizer τ) (chunks : List (List τ)) (t : Option τ) :
    d.outcome (updates chunks t) = d.outcome (updates (detokenized d.params chunks t) none) := by
  have hincluded (d : Detokenizer τ) (hb : d.params.includeStopStrInOutput = true) (ts : List τ)
      (t : τ) : d.update (ts ++ [t]) true = d.update (ts ++ [t]) false := by
    simp [update, hb]
  have hlast (d : Detokenizer τ) (ts : List τ) (t : τ) : d.outcome [(ts ++ [t], true)] =
      d.outcome [(if d.params.includeStopStrInOutput then ts ++ [t] else ts, false)] := by
    cases hb : d.params.includeStopStrInOutput with
    | true => simp only [outcome_singleton, hincluded d hb, if_true]
    | false =>
      obtain ⟨h1, h2⟩ := d.update_stopToken ts t hb
      simp only [outcome_singleton, h1, h2, Bool.false_eq_true, if_false]
  cases t with
  | none => rw [detokenized]
  | some t =>
    induction chunks generalizing d with
    | nil =>
      rw [detokenized]
      refine (hlast d [] t).trans ?_
      split_ifs
      · rfl
      · rfl
    | cons c rest ih =>
      cases rest with
      | nil =>
        rw [detokenized]
        refine (hlast d c t).trans ?_
        split_ifs
        · rfl
        · rfl
      | cons c' cs =>
        have hparams := update_params d c false
        rw [updates_none, updates, detokenized, map_cons, outcome, outcome]
        split
        · rfl
        · rename_i d' hu
          have hd : d'.params = d.params := by rw [← hparams, hu]
          rw [ih d', updates_none, hd]

section places
variable (d : Detokenizer τ) (ts : List τ)

def textAt (n : Nat) : Text := (d.grow (ts.take n)).outputText

/-- A stop string ends with the token at place `n`, behind the first `minTokens` tokens. -/
def EndsAt (n : Nat) (s : Text) : Prop :=
  d.params.minTokens ≤ d.tokenIds.length + n ∧
    EndsIn (d.grow ts).outputText s (d.textAt ts n).length (d.textAt ts (n + 1)).length

/-- No stop string ends before the token at place `n`, and one ends with it. -/
def FirstEnd (n : Nat) : Prop :=
  (∃ s ∈ d.params.stop, d.EndsAt ts n s) ∧ ∀ m < n, ∀ s ∈ d.params.stop, ¬ d.EndsAt ts m s

variable {n : Nat}

theorem textAt_prefix {m : Nat} (h : m ≤ n) : d.textAt ts m <+: d.textAt ts n := by
  obtain ⟨rest, hrest⟩ := take_prefix_take_left (l := ts) h
  unfold textAt
  rw [← hrest, grow_append]
  exact outputText_prefix_grow _ _

theorem textAt_of_length_le (h : ts.length ≤ n) :
    d.textAt ts n = (d.grow ts).outputText := by rw [textAt, take_of_length_le h]

theorem textAt_prefix_text (n : Nat) : d.textAt ts n <+: (d.grow ts).outputText := by
  by_cases h : n ≤ ts.length
  · rw [← d.textAt_of_length_le ts le_rfl]
    exact d.textAt_prefix ts h
  · rw [d.textAt_of_length_le ts (by omega)]

theorem endsIn_places (s : Text) {m : Nat} (h : m ≤ n) :
    EndsIn (d.grow ts).outputText s (d.textAt ts m).length (d.textAt ts n).length ↔
      ∃ k, m ≤ k ∧ k < n ∧ EndsIn (d.grow ts).outputText s (d.textAt ts k).length
        (d.textAt ts (k + 1)).length := by
  induction n, h using Nat.le_induction with
  | base =>
    constructor
    · rintro ⟨i, -, hlo, hhi⟩
      omega
    · omega
  | succ n hmn ih =>
    rw [endsIn_split (d.textAt_prefix ts hmn).length_le
      (d.textAt_prefix ts (Nat.le_succ n)).length_le, ih]
    constructor
    · rintro (⟨k, h1, h2, h3⟩ | h)
      · exact ⟨k, h1, by omega, h3⟩
      · exact ⟨n, hmn, by omega, h⟩
    rintro ⟨k, h1, h2, h3⟩
    by_cases hk : k = n
    · exact .inr (hk ▸ h3)
    · exact .inl ⟨k, h1, by omega, h3⟩

/-- The first stop string of the list that ends from place `n` up to `e`, at its first place `i`. -/
structure Returns (e n : Nat) (s : Text) (i : Nat) : Prop where
  first : d.FirstEnd ts n
  lt : n < e
  listed : ∃ l₁ l₂, d.params.stop = l₁ ++ s :: l₂ ∧
    ∀ s' ∈ l₁, ∀ m, n ≤ m → m < e → ¬ d.EndsAt ts m s'
  ends : ∃ m, n ≤ m ∧ m < e ∧ d.EndsAt ts m s
  occurs : OccursAt (d.grow ts).outputText s i
  behind : (d.textAt ts n).length < i + s.length
  upto : i + s.length ≤ (d.textAt ts e).length
  least : ∀ j, (d.textAt ts n).length < j + s.length → j < i →
    ¬ OccursAt (d.grow ts).outputText s j

theorem endsIn_window (s : Text) {a w e : Nat}
    (hw : w = a + min (d.params.minTokens - (d.tokenIds.length + a)) (e - a)) (hae : a ≤ e) :
    EndsIn (d.textAt ts e) s (d.textAt ts w).length (d.textAt ts e).length ↔
      ∃ k, a ≤ k ∧ k < e ∧ d.EndsAt ts k s := by
  rw [← endsIn_append (d.textAt_prefix_text ts e) le_rfl, d.endsIn_places ts s (by omega)]
  refine exists_congr fun k => ⟨?_, ?_⟩
  · rintro ⟨h1, h2, h3⟩
    exact ⟨by omega, h2, by omega, h3⟩
  · rintro ⟨h1, h2, h3, h4⟩
    exact ⟨by omega, h2, h4⟩

theorem returns_of_matchIn {a w e : Nat}
    (hw : w = a + min (d.params.minTokens - (d.tokenIds.length + a)) (e - a)) (hae : a ≤ e)
    (hbefore : ∀ k < a, ∀ s ∈ d.params.stop, ¬ d.EndsAt ts k s) {s : Text} {i : Nat}
    (hm : matchIn (d.textAt ts e) (d.textAt ts w).length d.params.stop = some (s, i)) :
    ∃ n, a ≤ n ∧ d.Returns ts e n s i := by
  obtain ⟨l1, l2, hstop, hlisted, hocc, hlo, hleast⟩ := matchIn_eq_some d.params.stop_ne_nil hm
  have hs : s ∈ d.params.stop := by simp [hstop]
  have hend := hocc.end_le (d.params.stop_ne_nil s hs)
  have hp := d.textAt_prefix_text ts e
  have hocc' := (occursAt_append hp hend).mpr hocc
  obtain ⟨k, hk⟩ := (d.endsIn_window ts s hw hae).mp ⟨i, hocc, hlo, hend⟩
  classical
  -- the first place at which a stop string ends
  have hex : ∃ n, ∃ s ∈ d.params.stop, d.EndsAt ts n s := ⟨k, s, hs, hk.2.2⟩
  set n := Nat.find hex with hn
  have hfirst : d.FirstEnd ts n := by
    refine ⟨Nat.find_spec hex, fun m hm s' hs' h => ?_⟩
    exact Nat.find_min hex hm ⟨s', hs', h⟩
  have hnk : n ≤ k := Nat.find_min' hex ⟨s, hs, hk.2.2⟩
  have han : a ≤ n := by
    by_contra h
    obtain ⟨s', hs', h'⟩ := hfirst.1
    exact hbefore n (by omega) s' hs' h'
  obtain ⟨-, -, hmin, -⟩ := hfirst.1
  have hwn : w ≤ n := by omega
  have hmono := (d.textAt_prefix ts hwn).length_le
  refine ⟨n, han, hfirst, by omega, ⟨l1, l2, hstop, fun s' hs' m h1 h2 h3 => ?_⟩,
    ⟨k, hnk, hk.2.1, hk.2.2⟩, hocc', ?_, hend, fun j h1 h2 h3 => ?_⟩
  · exact hlisted s' hs' ((d.endsIn_window ts s' hw hae).mpr ⟨m, by omega, h2, h3⟩)
  · by_contra h
    obtain ⟨m, h1, h2, h3⟩ := (d.endsIn_places ts s hwn).mp ⟨i, hocc', hlo, by omega⟩
    exact hfirst.2 m h2 s hs ⟨by omega, h3⟩
  · exact hleast j (by omega) h2 ((occursAt_append hp (by omega)).mp h3)

end places

theorem outcome_spec (d : Detokenizer τ) (pre rest : List (List τ))
    (hbefore : ∀ k < pre.flatten.length, ∀ s ∈ d.params.stop,
      ¬ d.EndsAt (pre ++ rest).flatten k s) :
    let ts := (pre ++ rest).flatten
    ((∀ k < ts.length, ∀ s ∈ d.params.stop, ¬ d.EndsAt ts k s) ∧
      (d.grow pre.flatten).outcome (updates rest none) = (none, (d.grow ts).outputText)) ∨
    ∃ pre' c post n s i, pre ++ rest = pre' ++ c :: post ∧ pre'.flatten.length ≤ n ∧
      d.Returns ts (pre'.flatten.length + c.length) n s i ∧
      (d.grow pre.flatten).outcome (updates rest none) =
        (some s, (d.grow ts).outputText.take (cut d.params (s, i))) := by
  induction rest generalizing pre with
  | nil =>
    refine .inl ⟨fun k hk => hbefore k (by simpa using hk), ?_⟩
    simp [updates, outcome]
  | cons c rest ih =>
    intro ts
    set a := pre.flatten.length with ha
    set e := a + c.length with he
    set q := d.params.minTokens - (d.tokenIds.length + a) with hq
    have hts : ts = pre.flatten ++ (c ++ rest.flatten) := by simp [ts]
    -- the texts before and behind this update, and where its check starts
    have hgrow : (d.grow pre.flatten).grow c = d.grow (pre.flatten ++ c) := (grow_append ..).symm
    have htext : (d.grow (pre.flatten ++ c)).outputText = d.textAt ts e := by
      rw [textAt, hts, ← append_assoc, take_left' (by simp [he, ha])]
    have hlo : ((d.grow pre.flatten).grow ((d.grow pre.flatten).minPart c)).outputText =
        d.textAt ts (a + min q (e - a)) := by
      rw [← grow_append, textAt, hts, minPart, grow_params, grow_tokenIds, length_append,
        take_length_add_append, take_append_of_le_length (by omega)]
      by_cases h : q ≤ c.length
      · rw [min_eq_left (by omega)]
      · rw [take_of_length_le (by omega), take_of_length_le (by omega)]
    have hstep := update_eq (d.grow pre.flatten) c
    rw [hgrow, htext, hlo, grow_params] at hstep
    simp only [updates_none, map_cons, outcome]
    cases hm : matchIn (d.textAt ts e) (d.textAt ts (a + min q (e - a))).length d.params.stop with
    | none =>
      rw [hm] at hstep
      have hnone := (matchIn_eq_none d.params.stop_ne_nil).mp hm
      have hbefore' : ∀ k < (pre ++ [c]).flatten.length, ∀ s ∈ d.params.stop,
          ¬ d.EndsAt ((pre ++ [c]) ++ rest).flatten k s := by
        intro k hk s hs h
        have hflat : ((pre ++ [c]) ++ rest).flatten = ts := by simp [ts]
        rw [hflat] at h
        by_cases hka : k < a
        · exact hbefore k hka s hs h
        · refine hnone s hs ((d.endsIn_window ts s rfl (by omega)).mpr ⟨k, by omega, ?_, h⟩)
          simpa [he, ha] using hk
      have hrec := ih (pre ++ [c]) hbefore'
      have hflat : (pre ++ [c]).flatten = pre.flatten ++ c := by simp
      simp only [hflat, append_assoc, updates_none] at hrec
      rw [hstep]
      exact hrec
    | some m =>
      obtain ⟨s, i⟩ := m
      rw [hm] at hstep
      obtain ⟨n, han, hret⟩ := d.returns_of_matchIn ts rfl (by omega) hbefore hm
      refine .inr ⟨pre, c, rest, n, s, i, rfl, han, hret, ?_⟩
      rw [hstep]
      have hcut : cut d.params (s, i) ≤ (d.textAt ts e).length := by
        have := hret.upto
        unfold cut
        split_ifs <;> simp only <;> omega
      obtain ⟨tail, htail⟩ := d.textAt_prefix_text ts e
      rw [← htail, take_append_of_le_length hcut]

/-- No stop string ends in a text behind the first `minTokens` tokens. -/
def CleanText (d : Detokenizer τ) (ts : List τ) (text : Text) : Prop :=
  ∀ s ∈ d.params.stop, ¬ EndsIn text s
    (d.textAt ts (d.params.minTokens - d.tokenIds.length)).length text.length

/-- In the update in which the first stop string ends, the first listed one of those that end there
ends with the same token; when stop strings are excluded, none ends before it starts. -/
def FirstListedFirst (d : Detokenizer τ) (chunks : List (List τ)) : Prop :=
  ∀ pre c post, chunks = pre ++ c :: post → ∀ n, pre.flatten.length ≤ n →
    n < pre.flatten.length + c.length → d.FirstEnd chunks.flatten n →
    ∀ l₁ s l₂, d.params.stop = l₁ ++ s :: l₂ →
      (∀ s' ∈ l₁, ∀ m, n ≤ m → m < pre.flatten.length + c.length →
        ¬ d.EndsAt chunks.flatten m s') →
      (∃ m, n ≤ m ∧ m < pre.flatten.length + c.length ∧ d.EndsAt chunks.flatten m s) →
      ∃ i, OccursAt (d.grow chunks.flatten).outputText s i ∧
        (d.textAt chunks.flatten n).length < i + s.length ∧
        i + s.length ≤ (d.textAt chunks.flatten (n + 1)).length ∧
        (d.params.includeStopStrInOutput = false → ∀ s' ∈ d.params.stop, ∀ j,
          OccursAt (d.grow chunks.flatten).outputText s' j →
          (d.textAt chunks.flatten (d.params.minTokens - d.tokenIds.length)).length <
            j + s'.length → i < j + s'.length)

theorem FirstEnd.unique {m : Nat} (hn : d.FirstEnd ts n) (hm : d.FirstEnd ts m) : n = m := by
  rcases lt_trichotomy n m with h | h | h
  · obtain ⟨s, hs, hend⟩ := hn.1
    exact absurd hend (hm.2 n h s hs)
  · exact h
  · obtain ⟨s, hs, hend⟩ := hm.1
    exact absurd hend (hn.2 m h s hs)

theorem first_listed_unique {l1 l2 k1 k2 : List Text} {P : Text → Prop}
    (h : l1 ++ s :: l2 = k1 ++ r :: k2) (hl : ∀ x ∈ l1, ¬ P x) (hs : P s) (hk : ∀ x ∈ k1, ¬ P x)
    (hr : P r) : s = r := by
  induction l1 generalizing k1 with
  | nil =>
    cases k1 with
    | nil => exact (cons.inj h).1
    | cons y ys =>
      obtain ⟨rfl, -⟩ := cons.inj h
      exact absurd hs (hk s (by simp))
  | cons x xs ih =>
    cases k1 with
    | nil =>
      obtain ⟨rfl, -⟩ := cons.inj h
      exact absurd hr (hl x (by simp))
    | cons y ys =>
      exact ih (cons.inj h).2 (fun z hz => hl z (by simp [hz])) (fun z hz => hk z (by simp [hz]))

theorem Returns.agree {e j : Nat} (h : d.Returns ts e n s i) (h' : d.Returns ts (n + 1) n r j)
    (hs : d.EndsAt ts n s) : s = r ∧ i = j := by
  obtain ⟨l1, l2, hl, hlfirst⟩ := h.listed
  obtain ⟨k1, k2, hk, hkfirst⟩ := h'.listed
  obtain ⟨m, h1, h2, hr⟩ := h'.ends
  obtain rfl : m = n := by omega
  have heq : s = r := first_listed_unique (hl.symm.trans hk)
    (fun x hx => hlfirst x hx m le_rfl h.lt) hs (fun x hx => hkfirst x hx m le_rfl h2) hr
  subst heq
  refine ⟨rfl, ?_⟩
  rcases lt_trichotomy i j with hij | hij | hij
  · exact absurd h.occurs (h'.least i h.behind hij)
  · exact hij
  · exact absurd h'.occurs (h.least j h'.behind hij)

theorem Returns.endsAt {j : Nat} (h : d.Returns ts (n + 1) n r j) : d.EndsAt ts n r := by
  obtain ⟨m, h1, h2, hr⟩ := h.ends
  obtain rfl : m = n := by omega
  exact hr

theorem flatten_singles (ts : List τ) : (singles ts).flatten = ts := by
  rw [singles]
  induction ts with
  | nil => rfl
  | cons t ts ih => simpa using ih

theorem flatten_length_le {chunks : List (List τ)} (h : chunks = pre ++ c :: post) :
    pre.flatten.length + c.length ≤ chunks.flatten.length := by
  rw [h, flatten_append, flatten_cons, length_append, length_append]
  omega

theorem chunk_unique {pre' post' : List (List τ)} {c' : List τ}
    (h : pre ++ c :: post = pre' ++ c' :: post') (h1 : pre.flatten.length ≤ n)
    (h2 : n < pre.flatten.length + c.length) (h1' : pre'.flatten.length ≤ n)
    (h2' : n < pre'.flatten.length + c'.length) :
    pre'.flatten.length + c'.length = pre.flatten.length + c.length := by
  induction pre generalizing pre' n with
  | nil =>
    cases pre' with
    | nil =>
      obtain ⟨rfl, -⟩ := cons.inj h
      rfl
    | cons x xs =>
      obtain ⟨rfl, -⟩ := cons.inj h
      simp only [flatten_cons, length_append, flatten_nil, length_nil] at *
      omega
  | cons x xs ih =>
    cases pre' with
    | nil =>
      obtain ⟨rfl, -⟩ := cons.inj h
      simp only [flatten_cons, length_append, flatten_nil, length_nil] at *
      omega
    | cons y ys =>
      obtain ⟨rfl, htail⟩ := cons.inj h
      simp only [flatten_cons, length_append] at *
      have := ih htail (n := n - x.length) (by omega) (by omega) (by omega) (by omega)
      omega

theorem singles_place (h : singles ts = pre ++ c :: post) (h1 : pre.flatten.length ≤ n)
    (h2 : n < pre.flatten.length + c.length) : pre.flatten.length + c.length = n + 1 := by
  have hc : c ∈ singles ts := by simp [h]
  have hlen : c.length ≤ 1 := by
    rcases mem_append.mp hc with hc | hc
    · obtain ⟨t, -, rfl⟩ := mem_map.mp hc
      simp
    · obtain rfl := mem_singleton.mp hc
      simp
  omega

theorem cleanText_of_none (h : ∀ k < ts.length, ∀ s ∈ d.params.stop, ¬ d.EndsAt ts k s) :
    d.CleanText ts (d.grow ts).outputText := by
  intro s hs hend
  set q := d.params.minTokens - d.tokenIds.length with hq
  by_cases hle : q ≤ ts.length
  · nth_rewrite 2 [← d.textAt_of_length_le ts le_rfl] at hend
    obtain ⟨k, h1, h2, h3⟩ := (d.endsIn_places ts s hle).mp hend
    exact h k h2 s hs ⟨by omega, h3⟩
  · rw [d.textAt_of_length_le ts (by omega)] at hend
    obtain ⟨i, -, h1, h2⟩ := hend
    omega

theorem cleanText_take (hi : i ≤ (d.grow ts).outputText.length) :
    d.CleanText ts ((d.grow ts).outputText.take i) ↔ ∀ s ∈ d.params.stop, ∀ j,
      OccursAt (d.grow ts).outputText s j →
      (d.textAt ts (d.params.minTokens - d.tokenIds.length)).length < j + s.length →
      i < j + s.length := by
  have hlen : ((d.grow ts).outputText.take i).length = i := by simpa using hi
  have hp := take_prefix i (d.grow ts).outputText
  constructor
  · intro h s hs j hocc hmin
    by_contra hle
    refine h s hs ⟨j, (occursAt_append hp (by omega)).mp hocc, hmin, by omega⟩
  rintro h s hs ⟨j, hocc, hmin, hle⟩
  have := h s hs j ((occursAt_append hp (by omega)).mpr hocc) hmin
  omega

theorem outcome_split_iff (d : Detokenizer τ) (chunks : List (List τ)) :
    (d.outcome (updates chunks none) = d.outcome (updates (singles chunks.flatten) none) ∧
      (d.params.includeStopStrInOutput = false →
        d.CleanText chunks.flatten (d.outcome (updates chunks none)).2)) ↔
      d.FirstListedFirst chunks := by
  set ts := chunks.flatten with hts
  have hspec := d.outcome_spec [] chunks (by simp)
  have hone := d.outcome_spec [] (singles ts) (by simp)
  simp only [nil_append, flatten_nil, grow_nil, flatten_singles] at hspec hone
  rw [← hts] at hspec
  rcases hspec with ⟨hno, hout⟩ | ⟨pre, c, post, n, s, i, hchunks, han, hret, hout⟩
  · -- no stop string ends
    have hfirst (n : Nat) (hn : n < ts.length) : ¬ d.FirstEnd ts n := by
      rintro ⟨⟨r, hr, hend⟩, -⟩
      exact hno n hn r hr hend
    rcases hone with ⟨-, hout'⟩ | ⟨pre', c', post', n', s', i', hsplit, -, hret', -⟩
    · refine ⟨fun _ pre c post hsplit n _ h2 hend => ?_, fun _ => ⟨hout.trans hout'.symm, ?_⟩⟩
      · exact absurd hend (hfirst n (h2.trans_le (flatten_length_le hsplit)))
      · intro _
        rw [hout]
        exact cleanText_of_none hno
    · have hlen := flatten_length_le hsplit
      rw [flatten_singles] at hlen
      exact absurd hret'.first (hfirst n' (hret'.lt.trans_le hlen))
  · rcases hone with ⟨hno, -⟩ | ⟨pre', c', post', n', s', i', hsplit, han', hret', hout'⟩
    · obtain ⟨r, hr, hend⟩ := hret.first.1
      exact absurd hend (hno n (hret.lt.trans_le (flatten_length_le hchunks)) r hr)
    obtain rfl : n' = n := hret'.first.unique hret.first
    rw [singles_place hsplit han' hret'.lt] at hret'
    have hi : i ≤ (d.grow ts).outputText.length := by
      have := hret.occurs.end_le (d.params.stop_ne_nil s (by
        obtain ⟨l1, l2, hl, -⟩ := hret.listed
        simp [hl]))
      omega
    have hclean (hb : d.params.includeStopStrInOutput = false) :
        (d.outcome (updates chunks none)).2 = (d.grow ts).outputText.take i := by
      rw [hout, cut, hb]
      rfl
    constructor
    · rintro ⟨heq, hc⟩ pre1 c1 post1 hsplit1 n1 h1 h2 hfirst1 l1 r l2 hstop hbefore hends
      obtain rfl : n1 = n' := hfirst1.unique hret.first
      rw [chunk_unique (hchunks.symm.trans hsplit1) han hret.lt h1 h2] at hbefore hends
      -- both runs and the list name the same string
      obtain ⟨k1, k2, hk, hkfirst⟩ := hret.listed
      obtain rfl : r = s := by
        refine first_listed_unique (P := fun x => ∃ m, n1 ≤ m ∧
          m < pre.flatten.length + c.length ∧ d.EndsAt ts m x) (hstop.symm.trans hk) ?_ hends ?_
          hret.ends
        · rintro x hx ⟨m, hm1, hm2, hm3⟩
          exact hbefore x hx m hm1 hm2 hm3
        · rintro x hx ⟨m, hm1, hm2, hm3⟩
          exact hkfirst x hx m hm1 hm2 hm3
      have hrs : r = s' := by
        rw [hout, hout'] at heq
        exact Option.some.inj (Prod.mk.inj heq).1
      have hends' : d.EndsAt ts n1 r := hrs ▸ hret'.endsAt
      obtain ⟨-, rfl⟩ := hret.agree hret' hends'
      refine ⟨i, hret.occurs, hret.behind, hrs ▸ hret'.upto, fun hb => ?_⟩
      have := hc hb
      rw [hclean hb] at this
      exact (cleanText_take hi).mp this
    · intro hcond
      obtain ⟨k1, k2, hk, hkfirst⟩ := hret.listed
      obtain ⟨i0, hocc, hlo, hhi, hno⟩ := hcond pre c post hchunks n' han hret.lt hret.first k1 s k2
        hk hkfirst hret.ends
      obtain ⟨-, -, hmin, -⟩ := hret.first.1
      obtain ⟨rfl, rfl⟩ := hret.agree hret' ⟨hmin, i0, hocc, hlo, hhi⟩
      refine ⟨hout.trans hout'.symm, fun hb => ?_⟩
      rw [hclean hb]
      refine (cleanText_take hi).mpr fun r hr j hj hmin => ?_
      have hle : i ≤ i0 := by
        by_contra h
        exact hret.least i0 hlo (by omega) hocc
      exact hle.trans_lt (hno hb r hr j hj hmin)

theorem outcome_append_nil (d : Detokenizer τ) (chunks : List (List τ)) :
    d.outcome (updates (chunks ++ [[]]) none) = d.outcome (updates chunks none) := by
  rw [updates_none, updates_none]
  induction chunks generalizing d with
  | nil => rfl
  | cons c rest ih =>
    rw [cons_append, map_cons, map_cons, outcome, outcome]
    split
    · rfl
    · exact ih _

theorem detokenized_append (params : StopParams) (chunks : List (List τ)) (c : List τ) (t : τ) :
    detokenized params (chunks ++ [c]) (some t) =
      chunks ++ [if params.includeStopStrInOutput then c ++ [t] else c] := by
  induction chunks with
  | nil =>
    rw [nil_append, detokenized]
    split_ifs <;> rfl
  | cons x xs ih =>
    cases xs with
    | nil =>
      rw [cons_append, nil_append, detokenized]
      · rw [nil_append] at ih
        rw [ih]
        rfl
    | cons y ys =>
      rw [cons_append, cons_append, detokenized]
      · rw [cons_append] at ih
        rw [ih]
        rfl

theorem flatten_detokenized (params : StopParams) (chunks : List (List τ)) (t : τ) :
    (detokenized params chunks (some t)).flatten =
      if params.includeStopStrInOutput then chunks.flatten ++ [t] else chunks.flatten := by
  rcases eq_nil_or_concat chunks with rfl | ⟨init, c, rfl⟩
  · rw [detokenized]
    split_ifs <;> rfl
  · rw [concat_eq_append, detokenized_append]
    split_ifs <;> simp

theorem outcome_singles (d : Detokenizer τ) (chunks : List (List τ)) (t : Option τ) :
    d.outcome (updates (singles chunks.flatten) t) =
      d.outcome (updates (singles (detokenized d.params chunks t).flatten) none) := by
  cases t with
  | none => rw [detokenized]
  | some t =>
    rw [outcome_updates, singles, detokenized_append, flatten_detokenized]
    cases d.params.includeStopStrInOutput with
    | true =>
      simp only [if_true, nil_append, singles, map_append, map_cons, map_nil]
      rw [outcome_append_nil]
    | false => simp only [Bool.false_eq_true, if_false, singles]

/-- For every split of the tokens into updates, the stop string and the final text are those of one
token at a time, and a text without stop strings is clean, exactly when the first listed stop string
is the first. -/
theorem split_iff (decodeNext : List τ → τ → Text) (params : StopParams) (chunks : List (List τ))
    (stopToken : Option τ) :
    ((init decodeNext params).outcome (updates chunks stopToken) =
        (init decodeNext params).outcome (updates (singles chunks.flatten) stopToken) ∧
      (params.includeStopStrInOutput = false → (init decodeNext params).CleanText chunks.flatten
        ((init decodeNext params).outcome (updates chunks stopToken)).2)) ↔
      (init decodeNext params).FirstListedFirst (detokenized params chunks stopToken) := by
  set d := init decodeNext params with hd
  have hp : d.params = params := rfl
  rw [← d.outcome_split_iff, outcome_singles, outcome_updates, hp]
  refine and_congr_right fun _ => imp_congr_right fun hb => ?_
  cases stopToken with
  | none => rw [detokenized]
  | some t => rw [flatten_detokenized, if_neg (by simp [hb])]

/-- `"b"` and `"a"` as stop strings, and tokens that are characters. -/
def listedParams : StopParams where
  stop := [['b'], ['a']]
  minTokens := 0
  includeStopStrInOutput := false
  stop_ne_nil := by decide

def character (_ : List Char) (t : Char) : Text := [t]

/-- Two tokens at once stop at the first listed string, and the text holds the other one. -/
theorem split_counter :
    (init character listedParams).outcome (updates [['a', 'b']] none) = (some ['b'], ['a']) ∧
    (init character listedParams).outcome (updates (singles ['a', 'b']) none) = (some ['a'], []) ∧
    ¬ (init character listedParams).CleanText ['a', 'b'] ['a'] := by
  refine ⟨by decide +kernel, by decide +kernel, fun h => ?_⟩
  exact h ['a'] (by decide) ⟨0, by decide +kernel⟩

end Detokenizer
end TailBlend
