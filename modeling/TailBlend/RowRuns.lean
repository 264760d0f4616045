import TailBlend.RowContents

/-! Runs of the batch: every row describes its request. -/
namespace TailBlend.Batch
open Rows Function List
variable {ι ε γ : Type} [DecidableEq ι]

namespace InputBatch

/-! A fresh batch -/

def fresh (config : Config) (r : Request ι ε γ) : InputBatch ι ε γ := (init config).joined 0 r

variable {config : Config} {s s' : InputBatch ι ε γ} {i : Nat} {r : Request ι ε γ}
  {l : List (List Nat)}

theorem addRequest_init (h : 0 < config.maxNumReqs) (r : Request ι ε γ) :
    (init config).addRequest r = .ok (fresh config r) := by
  have hn : NextRow (init config : InputBatch ι ε γ) 0 [] :=
    ⟨rfl, rfl, fun _ => Pairwise.nil, rfl, rfl, .inl ⟨rfl, rfl, rfl⟩⟩
  exact addRequest_eq hn h r

/-- The row is the one that `add_request` makes for the request in a fresh batch. -/
def Describes (s : InputBatch ι ε γ) (i : Nat) (r : Request ι ε γ) : Prop :=
  ∃ f, (init s.config).addRequest r = .ok f ∧ SameRow r.Written s i f 0 ∧
    s.specTokenIds[i]? = f.specTokenIds[0]?

/-! The columns after the calls -/

omit [DecidableEq ι] in
theorem same_columns (W : Nat → Prop) (s : InputBatch ι ε γ) (k : Nat) (ids : List (Option ι))
    (index : List (ι × Nat)) (outputs : List (Option (List Nat))) (spec : List (List Nat))
    (b : BatchUpdateBuilder ι ε γ) (occ : Nat → Option (Request ι ε γ)) :
    SameRow W { s with
      reqIds := ids
      reqIdToIndex := index
      reqOutputTokenIds := outputs
      specTokenIds := spec
      builder := b
      occupant := occ } k s k where
  numTokens := rfl
  numPrompt := rfl
  numComputed := rfl
  tokens _ _ _ := rfl
  isTokens _ _ := rfl
  embeds := rfl
  blocks := .refl _ k
  config := rfl
  lora := rfl
  params _ := rfl
  generator := rfl
  badWords := rfl
  mask _ _ := rfl
  needs := rfl

theorem place_row (W : Nat → Prop) (s : InputBatch ι ε γ) (r : Request ι ε γ) (i k : Nat)
    (b : BatchUpdateBuilder ι ε γ) : SameRow W (place { s with builder := b } i r) k s k := by
  unfold place
  split_ifs
  · exact same_columns W s k ..
  · exact same_columns W s k ..

/-- Every row with a request is the row of a fresh batch, and the free rows have no entry in the
dicts. -/
structure Contents (s : InputBatch ι ε γ) : Prop where
  rows : ∀ i r, s.occupant i = some r → SameRow r.Written s i (fresh s.config r) 0
  generator : ∀ i, s.occupant i = none → s.generators i = none
  badWords : ∀ i, s.occupant i = none → s.badWordsTokenIds i = none
  tables : s.blockTables.map (fun t => t.blocksPerKvBlock) = s.config.blocksPerKvBlock
  sampling : s.config.isPoolingModel = false → ∀ i, s.logitsProcessingNeedsTokenIds i = false
  pooling : s.config.isPoolingModel = true → (∀ i, s.generators i = none) ∧
    (∀ i, s.badWordsTokenIds i = none) ∧ s.allowedTokenIdsMask = none

structure NoSpec (s : InputBatch ι ε γ) : Prop where
  nil : ∀ x ∈ s.specTokenIds, x = []
  length : s.reqIds.length ≤ s.specTokenIds.length

def nextIndex (s : InputBatch ι ε γ) : Nat := (s.builder.popRemoved.1).getD s.numReqs

/-- What the calls need to leave nothing of another request at a row. -/
def tidy : Guards ι ε γ where
  add := fun s r =>
    (r.promptEmbeds.isSome ∨ (s.reqPromptEmbeds s.nextIndex).isNone) ∧
    (r.allowedTokenIds ≠ [] ∨ ∀ t < s.config.vocabSize, s.masked s.nextIndex t = false)
  move := fun s last dst =>
    ((s.reqPromptEmbeds dst).isNone ∨ (s.reqPromptEmbeds last).isSome) ∧
    s.logitsProcessingNeedsTokenIds dst = s.logitsProcessingNeedsTokenIds last
  swap := fun s i j =>
    (∀ t < s.config.vocabSize, s.masked i t = s.masked j t) ∧
    s.logitsProcessingNeedsTokenIds i = s.logitsProcessingNeedsTokenIds j

/-- What a call leaves at a row: a row of the batch before it, a new row, or a free one. -/
inductive RowFrom (s s' : InputBatch ι ε γ) (k : Nat) : Prop where
  | kept (j : Nat) (hocc : s'.occupant k = s.occupant j) (hrow : ∀ W, SameRow W s' k s j)
  | new (r : Request ι ε γ) (hocc : s'.occupant k = some r)
      (hrow : SameRow r.Written s' k (fresh s.config r) 0)
  | free (hocc : s'.occupant k = none) (hgen : s'.generators k = none)
      (hbad : s'.badWordsTokenIds k = none)

theorem Contents.of_rows (h : Contents s) (hconfig : s'.config = s.config)
    (htables : s'.blockRatios = s.blockRatios)
    (hneeds : s.config.isPoolingModel = false → ∀ k, ∃ j,
      s'.logitsProcessingNeedsTokenIds k = s.logitsProcessingNeedsTokenIds j)
    (hpool : s.config.isPoolingModel = true → (∀ k, ∃ j, s'.generators k = s.generators j) ∧
      (∀ k, ∃ j, s'.badWordsTokenIds k = s.badWordsTokenIds j) ∧
      s'.allowedTokenIdsMask = s.allowedTokenIdsMask)
    (hrows : ∀ k, RowFrom s s' k) : Contents s' := by
  refine ⟨fun k r hr => ?_, fun k hk => ?_, fun k hk => ?_, ?_, fun hp k => ?_, fun hp => ?_⟩
  · rw [hconfig]
    rcases hrows k with ⟨j, hocc, hrow⟩ | ⟨r', hocc, hrow⟩ | ⟨hocc, -, -⟩
    · exact (hrow _).trans (h.rows j r (hocc.symm.trans hr))
    · cases hocc.symm.trans hr
      exact hrow
    · cases hocc.symm.trans hr
  · rcases hrows k with ⟨j, hocc, hrow⟩ | ⟨r', hocc, -⟩ | ⟨-, hgen, -⟩
    · exact (hrow fun _ => True).generator.trans (h.generator j (hocc.symm.trans hk))
    · cases hocc.symm.trans hk
    · exact hgen
  · rcases hrows k with ⟨j, hocc, hrow⟩ | ⟨r', hocc, -⟩ | ⟨-, -, hbad⟩
    · exact (hrow fun _ => True).badWords.trans (h.badWords j (hocc.symm.trans hk))
    · cases hocc.symm.trans hk
    · exact hbad
  · rw [hconfig]
    exact htables.trans h.tables
  · rw [hconfig] at hp
    obtain ⟨j, hj⟩ := hneeds hp k
    exact hj.trans (h.sampling hp j)
  · rw [hconfig] at hp
    obtain ⟨hgen, hbad, hmask⟩ := hpool hp
    obtain ⟨h1, h2, h3⟩ := h.pooling hp
    refine ⟨fun k => ?_, fun k => ?_, hmask.trans h3⟩
    · obtain ⟨j, hj⟩ := hgen k
      exact hj.trans (h1 j)
    · obtain ⟨j, hj⟩ := hbad k
      exact hj.trans (h2 j)

omit [DecidableEq ι] in
theorem clearRow_columns (s : InputBatch ι ε γ) (i : Nat) :
    (s.clearRow i).logitsProcessingNeedsTokenIds = s.logitsProcessingNeedsTokenIds ∧
      (s.clearRow i).specTokenIds = s.specTokenIds ∧
      (s.clearRow i).blockTables = s.blockTables.map (fun t => t.clearRow i) ∧
      ((s.config.isPoolingModel = true ∧ (s.clearRow i).generators = s.generators ∧
          (s.clearRow i).badWordsTokenIds = s.badWordsTokenIds ∧
          (s.clearRow i).allowedTokenIdsMask = s.allowedTokenIdsMask) ∨
        (s.config.isPoolingModel = false ∧
          (s.clearRow i).generators = update s.generators i none ∧
          (s.clearRow i).badWordsTokenIds = update s.badWordsTokenIds i none)) := by
  unfold clearRow
  simp only
  split_ifs with hpool
  · exact ⟨rfl, rfl, rfl, .inl ⟨hpool, rfl, rfl, rfl⟩⟩
  · exact ⟨rfl, rfl, rfl, .inr ⟨by simpa using hpool, rfl, rfl⟩⟩

theorem Contents.remove (h : Contents s) : Contents (s.cleared r.reqId i) := by
  set b := { s.builder with removed := s.builder.removed ++ [i] } with hb
  obtain ⟨hneeds, -, htables, hdicts⟩ :=
    (forget { s with builder := b } r.reqId i).clearRow_columns i
  have hocc : (s.cleared r.reqId i).occupant = update s.occupant i none :=
    (s.cleared_same r.reqId i).1.occupant
  have hconfig : (s.cleared r.reqId i).config = s.config := (s.cleared_same r.reqId i).1.config
  refine h.of_rows hconfig ?_ (fun _ k => ⟨k, congrFun hneeds k⟩) (fun hpool => ?_) (fun k => ?_)
  · refine (congrArg (map fun t => t.blocksPerKvBlock) htables).trans ?_
    rw [map_map]
    rfl
  · rcases hdicts with ⟨-, hg, hw, hm⟩ | ⟨hfalse, -, -⟩
    · exact ⟨fun k => ⟨k, congrFun hg k⟩, fun k => ⟨k, congrFun hw k⟩, hm⟩
    · exact absurd (hpool.symm.trans hfalse) (by simp)
  by_cases hki : k = i
  · rw [hki]
    have hfree : (s.cleared r.reqId i).occupant i = none := by rw [hocc, update_self]
    rcases hdicts with ⟨hpool, hg, hw, -⟩ | ⟨-, hg, hw⟩
    · exact .free hfree ((congrFun hg i).trans ((h.pooling hpool).1 i))
        ((congrFun hw i).trans ((h.pooling hpool).2.1 i))
    · exact .free hfree ((congrFun hg i).trans (update_self ..))
        ((congrFun hw i).trans (update_self ..))
  · exact .kept k (by rw [hocc, update_of_ne hki]) fun W =>
      (clearRow_ne _ _ hki).trans (same_columns _ s k ..)

section
omit [DecidableEq ι]

theorem Clean.of_row {W : Nat → Prop} (h : Clean s i r) (hrow : SameRow W s' i s i) :
    Clean s' i r where
  embeds := by
    rw [hrow.embeds]
    exact h.embeds
  generator := hrow.generator.trans h.generator
  badWords := hrow.badWords.trans h.badWords
  mask := by
    rcases h.mask with hm | hm
    · exact .inl hm
    · exact .inr fun t ht => (hrow.mask t ht).trans (hm t (by rw [← hrow.config]; exact ht))
  needs := by
    rw [hrow.needs]
    exact h.needs

theorem init_clean (config : Config) (r : Request ι ε γ) : Clean (init config) 0 r :=
  ⟨Or.inr rfl, rfl, rfl, Or.inr fun _ _ => rfl, Or.inr rfl⟩

theorem setRow_columns (s : InputBatch ι ε γ) (i : Nat) (r : Request ι ε γ) :
    (s.setRow i r).blockRatios = s.blockRatios ∧
      (s.setRow i r).specTokenIds = s.specTokenIds ∧
      (r.params.isPooling = false →
        (s.setRow i r).logitsProcessingNeedsTokenIds = s.logitsProcessingNeedsTokenIds) ∧
      (r.params.isPooling = true → (s.setRow i r).generators = s.generators ∧
        (s.setRow i r).badWordsTokenIds = s.badWordsTokenIds ∧
        (s.setRow i r).allowedTokenIdsMask = s.allowedTokenIdsMask) := by
  have htables : (s.setTokens i r).blockRatios = s.blockRatios := by
    refine ext_getElem? fun g => ?_
    simp only [setTokens, getElem?_map, getElem?_mapIdx]
    cases s.blockTables[g]? with
    | none => rfl
    | some t =>
      simp only [BlockTable.addRow, BlockTable.appendRow]
      split_ifs <;> rfl
  unfold setRow
  cases hp : r.params with
  | sampling p => exact ⟨htables, rfl, fun _ => rfl, fun hfalse => absurd hfalse Bool.false_ne_true⟩
  | pooling requiresTokenIds =>
    exact ⟨htables, rfl, fun htrue => absurd htrue.symm Bool.false_ne_true,
      fun _ => ⟨rfl, rfl, rfl⟩⟩

theorem init_tables (config : Config) :
    (init config : InputBatch ι ε γ).blockRatios = config.blocksPerKvBlock := by
  simp [blockRatios, init, comp_def]

end

theorem place_columns (s : InputBatch ι ε γ) (i : Nat) (r : Request ι ε γ) :
    (s.place i r).blockTables = s.blockTables ∧ (s.place i r).generators = s.generators ∧
      (s.place i r).badWordsTokenIds = s.badWordsTokenIds ∧
      (s.place i r).allowedTokenIdsMask = s.allowedTokenIdsMask ∧
      (s.place i r).logitsProcessingNeedsTokenIds = s.logitsProcessingNeedsTokenIds ∧
      (s.place i r).specTokenIds = if i = s.reqIds.length then s.specTokenIds ++ [[]]
        else s.specTokenIds.set i [] := by
  unfold place
  split_ifs <;> exact ⟨rfl, rfl, rfl, rfl, rfl, rfl⟩

theorem Contents.clean (h : Contents s) {rest : List Nat} (hn : NextRow s i rest)
    (hrow : s.occupant i = none) (hsuits : r.Suits s.config) (hg : (tidy : Guards ι ε γ).add s r) :
    Clean s i r := by
  obtain ⟨hembeds, hmask⟩ := hg
  have hi : s.nextIndex = i := hn.index
  rw [hi] at hembeds hmask
  refine ⟨?_, h.generator i hrow, h.badWords i hrow, hmask, ?_⟩
  · rw [Option.isNone_iff_eq_none] at hembeds
    exact hembeds
  · cases hp : r.params.isPooling with
    | true => exact .inl rfl
    | false => exact .inr (h.sampling (hsuits.1.symm.trans hp) i)

theorem Contents.add (h : Contents s) {rest : List Nat} (hn : NextRow s i rest)
    (hrow : s.occupant i = none) (hsuits : r.Suits s.config) (hg : (tidy : Guards ι ε γ).add s r) :
    Contents (s.joined i r) := by
  obtain ⟨hsame, -⟩ := s.joined_same i r
  obtain ⟨-, hocc, -, hconfig⟩ := s.place_rest i r
  replace hocc := hsame.occupant.trans hocc
  replace hconfig := hsame.config.trans hconfig
  obtain ⟨htables, -, hneeds, hdicts⟩ :=
    (place { s with builder := s.registered i r } i r).setRow_columns i r
  obtain ⟨hp1, hp2, hp3, hp4, hp5, -⟩ := place_columns { s with builder := s.registered i r } i r
  refine h.of_rows hconfig (htables.trans (by rw [blockRatios, hp1])) (fun hpool k => ⟨k, ?_⟩)
    (fun hpool => ?_) (fun k => ?_)
  · exact congrFun ((hneeds (hsuits.1.trans hpool)).trans hp5) k
  · obtain ⟨h1, h2, h3⟩ := hdicts (hsuits.1.trans hpool)
    exact ⟨fun k => ⟨k, congrFun (h1.trans hp2) k⟩, fun k => ⟨k, congrFun (h2.trans hp3) k⟩,
      h3.trans hp4⟩
  by_cases hki : k = i
  · rw [hki]
    refine .new r (by rw [hocc, update_self]) ?_
    have hclean := (h.clean hn hrow hsuits hg).of_row
      (place_row r.Written s r i i (s.registered i r))
    have hclean' := (init_clean s.config r).of_row
      (place_row r.Written (init s.config) r 0 0 ((init s.config).registered 0 r))
    have hc1 : (place { s with builder := s.registered i r } i r).config = s.config :=
      (place_rest { s with builder := s.registered i r } i r).2.2.2
    have hc2 : (place { (init s.config : InputBatch ι ε γ) with
        builder := (init s.config).registered 0 r } 0 r).config = s.config :=
      (place_rest _ 0 r).2.2.2
    refine setRow_row (by rw [hc1]; exact hsuits) (hc1.trans hc2.symm) ?_ hclean hclean'
    rw [blockRatios, hp1]
    have hinit : (init s.config : InputBatch ι ε γ).blockRatios = _ := init_tables s.config
    exact h.tables.trans hinit.symm
  · exact .kept k (by rw [hocc, update_of_ne hki]) fun W =>
      (setRow_ne W _ r hki).trans (place_row ..)

omit [DecidableEq ι] in
theorem swapColumns_columns (s : InputBatch ι ε γ) (i j : Nat) :
    (s.swapColumns i j).blockRatios = s.blockRatios ∧
      (s.swapColumns i j).specTokenIds = swapList s.specTokenIds i j [] ∧
      (s.config.isPoolingModel = true →
        (s.swapColumns i j).allowedTokenIdsMask = s.allowedTokenIdsMask) := by
  unfold swapColumns
  simp only
  split_ifs with hpool
  · exact ⟨map_map, rfl, fun _ => rfl⟩
  · exact ⟨map_map, rfl, fun htrue => absurd htrue hpool⟩

theorem Contents.swap (h : Contents s) {a b : Request ι ε γ} {j : Nat}
    (hg : (tidy : Guards ι ε γ).swap s i j) : Contents (s.swapped a b i j) := by
  have hrow (k : Nat) (W : Nat → Prop) : SameRow W (s.swapped a b i j) k s (Equiv.swap i j k) := by
    have hex : Exchangeable (s.exchange a.reqId b.reqId i j i j) i j :=
      ⟨hg.1, hg.2, fun hpool => ⟨(h.pooling hpool).1, (h.pooling hpool).2.1⟩⟩
    exact (swapColumns_row W hex k).trans (same_columns W s _ ..)
  obtain ⟨htables, -, hmask⟩ := (s.exchange a.reqId b.reqId i j i j).swapColumns_columns i j
  refine h.of_rows (hrow 0 fun _ => True).config htables
    (fun _ k => ⟨_, (hrow k fun _ => True).needs⟩) (fun hpool => ?_)
    (fun k => .kept _ (swapped_occupant ..) (hrow k))
  exact ⟨fun k => ⟨_, (hrow k fun _ => True).generator⟩,
    fun k => ⟨_, (hrow k fun _ => True).badWords⟩, hmask hpool⟩

omit [DecidableEq ι] in
theorem moveColumns_columns (s : InputBatch ι ε γ) (last dst : Nat) :
    (s.moveColumns last dst).blockRatios = s.blockRatios ∧
      (s.moveColumns last dst).specTokenIds = (swapList s.specTokenIds last dst []).set last [] ∧
      (s.moveColumns last dst).logitsProcessingNeedsTokenIds = s.logitsProcessingNeedsTokenIds ∧
      ((s.config.isPoolingModel = true ∧ (s.moveColumns last dst).generators = s.generators ∧
          (s.moveColumns last dst).badWordsTokenIds = s.badWordsTokenIds ∧
          (s.moveColumns last dst).allowedTokenIdsMask = s.allowedTokenIdsMask) ∨
        (s.config.isPoolingModel = false ∧
          (s.moveColumns last dst).generators = moveEntry s.generators last dst ∧
          (s.moveColumns last dst).badWordsTokenIds = moveEntry s.badWordsTokenIds last dst)) := by
  unfold moveColumns
  simp only
  split_ifs with hpool
  · exact ⟨map_map, rfl, rfl, .inl ⟨hpool, rfl, rfl, rfl⟩⟩
  · exact ⟨map_map, rfl, rfl, .inr ⟨by simpa using hpool, rfl, rfl⟩⟩

theorem Contents.move (h : Contents s) {last dst : Nat} (hr : s.occupant last = some r)
    (hdst : s.occupant dst = none) (hlt : dst < last) (hg : (tidy : Guards ι ε γ).move s last dst)
    (removed : List Nat) : Contents (s.shifted r last dst removed) := by
  have hsame := (s.shifted_same r last dst removed).1
  have hocc (k : Nat) : (s.shifted r last dst removed).occupant k =
      if k = last then none else if k = dst then some r else s.occupant k := by
    rw [hsame.occupant]
    simp only [relocate]
    split_ifs with h1 h2
    · rw [h1, update_self]
    · rw [update_of_ne h1, h2, copyRow_dst, hr]
    · rw [update_of_ne h1, copyRow_ne _ _ h2]
  set b := { s.builder with removed := removed } with hb
  obtain ⟨htables, -, hneeds, hdicts⟩ :=
    (relocate { s with builder := b } r.reqId last dst).moveColumns_columns last dst
  have hmoved (W : Nat → Prop) : SameRow W (s.shifted r last dst removed) dst s last := by
    have hmov : Movable (relocate { s with builder := b } r.reqId last dst) last dst := by
      refine ⟨?_, h.generator dst hdst, h.badWords dst hdst, hg.2, fun hpool => ?_⟩
      · have := hg.1
        rw [Option.isNone_iff_eq_none] at this
        exact this
      · obtain ⟨h1, h2, h3⟩ := h.pooling hpool
        exact ⟨h1 last, h2 last, h3⟩
    exact (moveColumns_dst W (by omega) hmov).trans (same_columns W s last ..)
  refine h.of_rows hsame.config htables (fun _ k => ⟨k, congrFun hneeds k⟩) (fun hpool => ?_)
    (fun k => ?_)
  · rcases hdicts with ⟨-, hgen, hbad, hm⟩ | ⟨hfalse, -, -⟩
    · exact ⟨fun k => ⟨k, congrFun hgen k⟩, fun k => ⟨k, congrFun hbad k⟩, hm⟩
    · exact absurd (hpool.symm.trans hfalse) (by simp)
  by_cases h1 : k = last
  · rw [h1]
    have hfree := (hocc last).trans (if_pos rfl)
    rcases hdicts with ⟨hpool, hgen, hbad, -⟩ | ⟨-, hgen, hbad⟩
    · exact .free hfree ((congrFun hgen last).trans ((h.pooling hpool).1 last))
        ((congrFun hbad last).trans ((h.pooling hpool).2.1 last))
    · exact .free hfree ((congrFun hgen last).trans (moveEntry_src (by omega)))
        ((congrFun hbad last).trans (moveEntry_src (by omega)))
  · by_cases h2 : k = dst
    · rw [h2]
      exact .kept last ((hocc dst).trans (by rw [if_neg (by omega), if_pos rfl, hr])) hmoved
    · exact .kept k (by rw [hocc, if_neg h1, if_neg h2]) fun W =>
        (moveColumns_ne W _ h1 h2).trans (same_columns W s k ..)

theorem Contents.same (h : Contents s) (hocc : s'.occupant = s.occupant)
    (hrow : ∀ W k, SameRow W s' k s k) (htables : s'.blockTables = s.blockTables)
    (hmask : s'.allowedTokenIdsMask = s.allowedTokenIdsMask) : Contents s' :=
  h.of_rows (hrow (fun _ => True) 0).config (by rw [blockRatios, htables])
    (fun _ k => ⟨k, (hrow (fun _ => True) k).needs⟩)
    (fun _ => ⟨fun k => ⟨k, (hrow (fun _ => True) k).generator⟩,
      fun k => ⟨k, (hrow (fun _ => True) k).badWords⟩, hmask⟩)
    (fun k => .kept k (by rw [hocc]) fun W => hrow W k)

theorem contents_kept : Kept (tidy : Guards ι ε γ) Contents where
  remove _ _ _ _ h := h.remove
  add ho _ hn hj hg h := h.add hn (ho.occupant_nextRow hn).2.1 hj.suits hg
  swap _ _ _ _ hg h := h.swap hg
  sort {s} _ h := h.same rfl (fun W k => same_columns W s k ..) rfl rfl
  move hc _ hr hlt hg h := h.move hr ((hc.empty _ hlt.le).mpr (mem_cons_self ..)) hlt hg _
  trim {s _} _ _ h := h.same rfl (fun W k => same_columns W s k ..) rfl rfl

/-! Spec tokens -/

section
omit [DecidableEq ι]

theorem getD_nil (h : ∀ x ∈ l, x = []) (i : Nat) : (l[i]?).getD [] = [] := by
  cases hi : l[i]? with
  | none => rfl
  | some x => exact h x (mem_of_getElem? hi)

theorem set_nil (h : ∀ x ∈ l, x = []) {y : List Nat} (hy : y = []) (i : Nat) :
    ∀ x ∈ l.set i y, x = [] := by
  intro x hx
  rcases mem_or_eq_of_mem_set hx with hx | hx
  · exact h x hx
  · exact hx.trans hy

theorem swapList_nil (h : ∀ x ∈ l, x = []) (i j : Nat) : ∀ x ∈ swapList l i j [], x = [] :=
  set_nil (set_nil h (getD_nil h j) i) (getD_nil h i) j

end

theorem noSpec_kept (g : Guards ι ε γ) : Kept g NoSpec where
  remove {s r i} _ _ _ _ h := by
    have hspec : (s.cleared r.reqId i).specTokenIds = s.specTokenIds.set i [] :=
      (clearRow_columns _ i).2.1
    have hids : (s.cleared r.reqId i).reqIds = s.reqIds.set i none :=
      (s.cleared_same r.reqId i).1.reqIds
    constructor
    · rw [hspec]
      exact set_nil h.nil rfl i
    · rw [hids, hspec, length_set, length_set]
      exact h.length
  add {s r i _} ho _ hn _ _ h := by
    have hspec : (s.joined i r).specTokenIds = if i = s.reqIds.length then s.specTokenIds ++ [[]]
        else s.specTokenIds.set i [] :=
      (setRow_columns _ i r).2.1.trans (place_columns _ i r).2.2.2.2.2
    have hids : (s.joined i r).reqIds.length = _ :=
      (congrArg length (s.joined_same i r).1.reqIds).trans (s.length_place i r)
    have hlen := h.length
    constructor
    · rw [hspec]
      split_ifs
      · intro x hx
        rcases mem_append.mp hx with hx | hx
        · exact h.nil x hx
        · exact mem_singleton.mp hx
      · exact set_nil h.nil rfl i
    rw [hids, hspec]
    split_ifs
    · rw [length_append, length_singleton]
      omega
    · rw [length_set]
      exact hlen
  swap {s a b i j} _ _ _ _ _ h := by
    have hspec : (s.swapped a b i j).specTokenIds = swapList s.specTokenIds i j [] :=
      (swapColumns_columns _ i j).2.1
    constructor
    · rw [hspec]
      exact swapList_nil h.nil i j
    · rw [swapped_length, hspec, length_swapList]
      exact h.length
  sort _ h := ⟨h.nil, h.length⟩
  move {s r last dst removed} _ _ _ _ _ h := by
    have hspec : (s.shifted r last dst removed).specTokenIds =
        (swapList s.specTokenIds last dst []).set last [] := (moveColumns_columns _ last dst).2.1
    have hids : (s.shifted r last dst removed).reqIds =
        (s.reqIds.set dst (some r.reqId)).set last none :=
      (s.shifted_same r last dst removed).1.reqIds
    constructor
    · rw [hspec]
      exact set_nil (swapList_nil h.nil last dst) rfl last
    · rw [hids, hspec, length_set, length_set, length_set, length_swapList]
      exact h.length
  trim {s n} _ _ h := by
    constructor
    · exact fun x hx => h.nil x (mem_of_mem_take hx)
    · have := h.length
      simp only [trim, length_take]
      omega

/-! Runs -/

def runStep (s : InputBatch ι ε γ) (t : Step ι ε γ) : Except PyError (InputBatch ι ε γ) := do
  let (_, s) ← s.step t
  return s

structure Sound (config : Config) (s : InputBatch ι ε γ) : Prop extends Ready s where
  config_eq : s.config = config
  contents : Contents s
  noSpec : NoSpec s

theorem Sound.step (h : Sound config s) {t : Step ι ε γ} (hm : tidy.Meets s t) :
    ∃ s', s.runStep t = .ok s' ∧ Sound config s' := by
  obtain ⟨s', hs', hcontents, hstep, hready⟩ := contents_kept.step h.toReady h.contents hm
  obtain ⟨s'', hs'', hnoSpec, -⟩ := (noSpec_kept tidy).step h.toReady h.noSpec hm
  obtain rfl : s' = s'' := Except.ok.inj (hs'.symm.trans hs'')
  obtain ⟨s'', hs'', hconfig, -⟩ := (config_kept config tidy).step h.toReady h.config_eq hm
  obtain rfl : s' = s'' := Except.ok.inj (hs'.symm.trans hs'')
  refine ⟨s'.refreshMetadata.2, ?_, hready, hconfig,
    hcontents.same rfl (fun W k => same_columns W s' k ..) rfl rfl, ⟨hnoSpec.nil, hnoSpec.length⟩⟩
  rw [runStep, hstep]
  rfl

theorem init_sound (config : Config) : Sound config (init config : InputBatch ι ε γ) := by
  refine ⟨init_ready config, rfl, ⟨fun i r hr => ?_, fun _ _ => rfl, fun _ _ => rfl,
    init_tables config, fun _ _ => rfl, fun _ => ⟨fun _ => rfl, fun _ => rfl, rfl⟩⟩, ⟨?_, ?_⟩⟩
  · cases hr
  · intro x hx
    exact eq_of_mem_replicate hx
  · exact Nat.zero_le _

theorem Sound.describes (h : Sound config s) (hr : s.occupant i = some r) : Describes s i r := by
  have hlt := h.lt hr
  have hmax : 0 < s.config.maxNumReqs := by
    have := h.fits
    omega
  refine ⟨fresh s.config r, addRequest_init hmax r, h.contents.rows i r hr, ?_⟩
  have hfresh : (fresh s.config r).specTokenIds = replicate s.config.maxNumReqs [] ++ [[]] := by
    refine (setRow_columns _ 0 r).2.1.trans ((place_columns _ 0 r).2.2.2.2.2.trans ?_)
    rfl
  rw [hfresh, getElem?_append_left (by simpa using hmax), getElem?_replicate_of_lt hmax]
  have hlen := h.noSpec.length
  rw [getElem?_eq_getElem (by omega)]
  exact congrArg some (h.noSpec.nil _ (getElem_mem _))

/-- In every run whose calls meet the conditions every row describes its request. -/
theorem rows_described {config : Config} {ts : List (Step ι ε γ)}
    (h : Trace.Meets runStep tidy.Meets (init config) ts) :
    ∃ s, Trace.run runStep (init config) ts = .ok s ∧ s.config = config ∧ none ∉ s.reqIds ∧
      (∀ id i, OrderedDict.get? s.reqIdToIndex id = some i ↔ s.reqIds[i]? = some (some id)) ∧
      ∀ i < s.reqIds.length, ∃ r, s.occupant i = some r ∧ s.reqIds[i]? = some (some r.reqId) ∧
        Describes s i r := by
  obtain ⟨s, hrun, hs⟩ := Trace.run_ok (I := Sound config) (fun s t hs hm => hs.step hm)
    (init_sound config) h
  have hrow {i : Nat} (hi : i < s.reqIds.length) :
      ∃ r, s.occupant i = some r ∧ s.reqIds[i]? = some (some r.reqId) := by
    obtain ⟨r, hr⟩ := Option.ne_none_iff_exists'.mp (hs.full i hi)
    refine ⟨r, hr, ?_⟩
    rw [hs.ids i hi, hr]
    rfl
  refine ⟨s, hrun, hs.config_eq, fun hnone => ?_, fun id i => ?_, fun i hi => ?_⟩
  · obtain ⟨i, hi, hget⟩ := getElem_of_mem hnone
    obtain ⟨r, -, hid⟩ := hrow hi
    rw [getElem?_eq_getElem hi, hget] at hid
    cases hid
  · rw [hs.index id i]
    constructor
    · rintro ⟨r, hr, rfl⟩
      rw [hs.ids i (hs.lt hr), hr]
      rfl
    intro hid
    obtain ⟨r, hr, hid'⟩ := hrow (List.getElem?_eq_some_iff.mp hid).1
    rw [hid] at hid'
    cases hid'
    exact ⟨r, hr, rfl⟩
  · obtain ⟨r, hr, hid⟩ := hrow hi
    exact ⟨r, hr, hid, hs.describes hr⟩

section Decidable
variable (s : InputBatch ι ε γ)

instance (r : Request ι ε γ) : Decidable ((tidy : Guards ι ε γ).add s r) :=
  inferInstanceAs (Decidable (_ ∧ _))

instance (i j : Nat) : Decidable ((tidy : Guards ι ε γ).move s i j) :=
  inferInstanceAs (Decidable (_ ∧ _))

instance (i j : Nat) : Decidable ((tidy : Guards ι ε γ).swap s i j) :=
  inferInstanceAs (Decidable (_ ∧ _))

end Decidable

/-! Small batches -/

def smallConfig (isPoolingModel : Bool) : Config where
  isPoolingModel := isPoolingModel
  maxNumReqs := 4
  vocabSize := 8
  blocksPerKvBlock := [1]

def smallParams : SamplingParams where
  temperature := 1
  topP := 1
  topK := 0
  frequencyPenalty := 0
  presencePenalty := 0
  repetitionPenalty := 1
  allowedTokenIds := []
  badWordsTokenIds := []
  minP := 0
  logitBias := []
  minTokens := 0
  allStopTokenIds := []
  thinkingTokenBudget := none

def smallRequest (id : Nat) (params : RequestParams) (promptEmbeds : Option (List Unit)) :
    Request Nat Unit Unit where
  reqId := id
  promptTokenIds := if promptEmbeds.isSome then none else some [1, 2]
  promptIsTokenIds := none
  promptEmbeds := promptEmbeds
  outputTokenIds := [3]
  numComputedTokens := 0
  blockIds := [[id, 7]]
  params := params
  generator := some ()
  loraIntId := none

def plain (id : Nat) : Request Nat Unit Unit := smallRequest id (.sampling smallParams) none

def embedded (id : Nat) : Request Nat Unit Unit :=
  smallRequest id (.sampling smallParams) (some [()])

def restricted (id : Nat) : Request Nat Unit Unit :=
  smallRequest id (.sampling { smallParams with allowedTokenIds := [1] }) none

def pooled (id : Nat) (requiresTokenIds : Bool) : Request Nat Unit Unit :=
  smallRequest id (.pooling requiresTokenIds) none

def smallStep (removed : List Nat) (added : List (Request Nat Unit Unit))
    (reordered : List (Nat × Nat)) : Step Nat Unit Unit where
  removed := removed
  added := added
  swaps := []
  reordered := reordered

/-- Requests that come and go, with a move and an exchange. -/
theorem rows_described_exchange :
    ∃ s, Trace.run runStep (init (smallConfig false))
        [smallStep [] [plain 0, restricted 1, plain 2] [],
          smallStep [0] [] [], smallStep [] [embedded 3] [(0, 2)]] = .ok s ∧
      s.config = smallConfig false ∧ none ∉ s.reqIds ∧
      (∀ id i, OrderedDict.get? s.reqIdToIndex id = some i ↔ s.reqIds[i]? = some (some id)) ∧
      ∀ i < s.reqIds.length, ∃ r, s.occupant i = some r ∧ s.reqIds[i]? = some (some r.reqId) ∧
        Describes s i r := by
  apply rows_described
  decide +kernel

/-- The columns of the row that the calls may leave behind. -/
def agrees (s : InputBatch Nat Unit Unit) (i : Nat) : Bool :=
  (s.occupant i).all fun r => ((init s.config).addRequest r).toOption.any fun f =>
    (s.reqPromptEmbeds i).isSome == (f.reqPromptEmbeds 0).isSome &&
    (range s.config.vocabSize).all (fun t => s.masked i t == f.masked 0 t) &&
    s.logitsProcessingNeedsTokenIds i == f.logitsProcessingNeedsTokenIds 0

theorem agrees_of_describes {s : InputBatch Nat Unit Unit}
    (h : ∀ r, s.occupant i = some r → Describes s i r) : s.agrees i = true := by
  unfold agrees
  cases hr : s.occupant i with
  | none => rfl
  | some r =>
    obtain ⟨f, hf, hrow, -⟩ := h r hr
    simp only [Option.all_some, hf, Except.toOption, Option.any_some, Bool.and_eq_true, beq_iff_eq,
      all_eq_true, mem_range]
    exact ⟨⟨by rw [hrow.embeds], hrow.mask⟩, hrow.needs⟩

theorem not_described {ts : List (Step Nat Unit Unit)} (i : Nat)
    (h : (Trace.run runStep (init config) ts).toOption.any (fun s => !s.agrees i) = true) :
    ∃ s, Trace.run runStep (init config) ts = .ok s ∧
      ∃ r, s.occupant i = some r ∧ ¬ Describes s i r := by
  obtain ⟨s, hrun, h⟩ := ok_of_any h
  refine ⟨s, hrun, ?_⟩
  by_contra hall
  push Not at hall
  simp [agrees_of_describes hall] at h

/-- Runs after which a row describes more than its request: embeddings stay at a row that is used
again and at a row that `condense` fills, the mask of one row is at both rows after an exchange and
stays at a row that `condense` empties, and the flag of a pooling request is not moved. -/
theorem rows_diverge :
    (∃ s, Trace.run runStep (init (smallConfig false))
        [smallStep [] [embedded 0] [], smallStep [0] [plain 1] []] = .ok s ∧
      ∃ r, s.occupant 0 = some r ∧ ¬ Describes s 0 r) ∧
    (∃ s, Trace.run runStep (init (smallConfig false))
        [smallStep [] [embedded 0, plain 1] [], smallStep [0] [] []] = .ok s ∧
      ∃ r, s.occupant 0 = some r ∧ ¬ Describes s 0 r) ∧
    (∃ s, Trace.run runStep (init (smallConfig false))
        [smallStep [] [restricted 0, plain 1] [(0, 1)]] = .ok s ∧
      ∃ r, s.occupant 1 = some r ∧ ¬ Describes s 1 r) ∧
    (∃ s, Trace.run runStep (init (smallConfig false))
        [smallStep [] [plain 0, restricted 1] [], smallStep [0] [] [],
          smallStep [] [plain 2] []] = .ok s ∧
      ∃ r, s.occupant 1 = some r ∧ ¬ Describes s 1 r) ∧
    ∃ s, Trace.run runStep (init (smallConfig true))
        [smallStep [] [pooled 0 false, pooled 1 true] [], smallStep [0] [] []] = .ok s ∧
      ∃ r, s.occupant 0 = some r ∧ ¬ Describes s 0 r := by
  refine ⟨not_described 0 ?_, not_described 0 ?_, not_described 1 ?_, not_described 1 ?_,
    not_described 0 ?_⟩
  all_goals decide +kernel

end InputBatch
end TailBlend.Batch
