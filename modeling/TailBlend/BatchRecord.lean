import TailBlend.BatchSteps

/-! The record of the changes of a step: replayed from the rows before the step, it gives the rows
after it. -/
namespace TailBlend.Batch
open Rows Function List
variable {ι ε γ : Type}

/-! Replay of recorded changes -/

/-- What a recorded move does with the values of the rows; `z` is left at the row of a request that
moves away. -/
def replayMove {α : Type} (z : α) (occ : Nat → α) : Nat × Nat × MoveDirectionality → Nat → α
  | (a, b, .unidirectional) => Function.update (copyRow occ a b) a z
  | (a, b, .swap) => swapRows occ a b

def replayMoves {α : Type} (z : α) (occ : Nat → α) (moved : List (Nat × Nat × MoveDirectionality)) :
    Nat → α :=
  moved.foldl (replayMove z) occ

variable {α : Type} {m : Nat × Nat × MoveDirectionality} {i : Nat} {occ occ' : Nat → α}

theorem replayMoves_map {β : Type} (f : α → β) (z : α) (occ : Nat → α)
    (moved : List (Nat × Nat × MoveDirectionality)) (i : Nat) :
    f (replayMoves z occ moved i) = replayMoves (f z) (fun i => f (occ i)) moved i := by
  induction moved generalizing occ with
  | nil => rfl
  | cons m moved ih =>
    have hm : (fun i => f (replayMove z occ m i)) = replayMove (f z) (fun i => f (occ i)) m := by
      obtain ⟨a, b, d⟩ := m
      cases d with
      | unidirectional =>
        funext i
        simp only [replayMove]
        by_cases ha : i = a
        · rw [ha, update_self, update_self]
        rw [update_of_ne ha, update_of_ne ha]
        by_cases hb : i = b
        · rw [hb, copyRow_dst, copyRow_dst]
        · rw [copyRow_ne _ _ hb, copyRow_ne _ _ hb]
      | swap => rfl
    have := ih (replayMove z occ m)
    rw [hm] at this
    exact this

def replayAdded {α : Type} (occ : Nat → Option α) (added : List (Nat × α)) : Nat → Option α :=
  added.foldl (fun occ e => Function.update occ e.1 (some e.2)) occ

def replayRemoved {α : Type} (occ : Nat → Option α) (removed : List Nat) : Nat → Option α :=
  fun i => if i ∈ removed then none else occ i

def replay {α : Type} (removed : List Nat) (added : List (Nat × α))
    (moved : List (Nat × Nat × MoveDirectionality)) (occ : Nat → Option α) : Nat → Option α :=
  replayMoves none (replayAdded (replayRemoved occ removed) added) moved

theorem replayAdded_agree {occ occ' : Nat → Option α} (h : occ i = occ' i)
    (added : List (Nat × α)) : replayAdded occ added i = replayAdded occ' added i := by
  induction added generalizing occ occ' with
  | nil => exact h
  | cons e added ih =>
    refine ih ?_
    simp only
    by_cases he : i = e.1
    · rw [he, update_self, update_self]
    · rw [update_of_ne he, update_of_ne he, h]

theorem replayMove_agree (z : α) {c : Nat} (h : ∀ i, i ≠ c → occ i = occ' i) (h1 : m.1 ≠ c)
    (h2 : m.2.1 ≠ c) (i : Nat) (hi : i ≠ c) :
    replayMove z occ m i = replayMove z occ' m i := by
  obtain ⟨a, b, d⟩ := m
  cases d with
  | unidirectional =>
    simp only [replayMove]
    by_cases ha : i = a
    · rw [ha, update_self, update_self]
    rw [update_of_ne ha, update_of_ne ha]
    by_cases hb : i = b
    · rw [hb, copyRow_dst, copyRow_dst, h a h1]
    · rw [copyRow_ne _ _ hb, copyRow_ne _ _ hb, h i hi]
  | swap =>
    refine h _ ?_
    by_cases ha : i = a
    · rw [ha, Equiv.swap_apply_left]
      exact h2
    by_cases hb : i = b
    · rw [hb, Equiv.swap_apply_right]
      exact h1
    · rwa [Equiv.swap_apply_of_ne_of_ne ha hb]

theorem replayMoves_agree (z : α) {c : Nat} (h : ∀ i, i ≠ c → occ i = occ' i)
    {moved : List (Nat × Nat × MoveDirectionality)} (hm : ∀ m ∈ moved, m.1 ≠ c ∧ m.2.1 ≠ c)
    (i : Nat) (hi : i ≠ c) : replayMoves z occ moved i = replayMoves z occ' moved i := by
  induction moved generalizing occ occ' with
  | nil => exact h i hi
  | cons m moved ih =>
    obtain ⟨hm1, hm2⟩ := hm m (mem_cons_self ..)
    exact ih (replayMove_agree z h hm1 hm2) fun m' hm' => hm m' (mem_cons_of_mem _ hm')

theorem replayRemoved_mem {removed removed' : List Nat} (occ : Nat → Option α)
    (h : i ∈ removed ↔ i ∈ removed') :
    replayRemoved occ removed i = replayRemoved occ removed' i := by
  unfold replayRemoved
  simp only [h]

/-- Recorded changes in a batch of `n` rows: an added request is at no removed row, and a request
moves to another row. -/
structure Recordable {α : Type} (n : Nat) (removed : List Nat) (added : List (Nat × α))
    (moved : List (Nat × Nat × MoveDirectionality)) : Prop where
  disjoint : ∀ e ∈ added, e.1 ∉ removed
  proper : ∀ m ∈ moved, m.2.2 = .unidirectional → m.1 ≠ m.2.1
  removed_lt : ∀ i ∈ removed, i < n
  added_lt : ∀ e ∈ added, e.1 < n
  moved_lt : ∀ m ∈ moved, m.1 < n ∧ m.2.1 < n

namespace InputBatch
variable [DecidableEq ι]

/-- The rows are those that the record makes of the rows `occ` before the step. -/
structure Recorded (occ : Nat → Option (Request ι ε γ)) (s : InputBatch ι ε γ) : Prop where
  rows : s.occupant = replay s.builder.removed s.builder.added s.builder.moved occ
  form : Recordable s.config.maxNumReqs s.builder.removed s.builder.added s.builder.moved
  apart : ∀ m ∈ s.builder.moved, m.1 ∉ s.builder.removed ∧ m.2.1 ∉ s.builder.removed

variable {r : Request ι ε γ} {g : Guards ι ε γ} {s s' : InputBatch ι ε γ}
  {occ : Nat → Option (Request ι ε γ)} {removed : List Nat}

section
variable (h : Recorded occ s)
include h

theorem Recorded.remove
    (hind : Indexed s) (hadded : s.builder.added = [])
    (hmoved : s.builder.moved = []) (hr : s.occupant i = some r) :
    Recorded occ (s.cleared r.reqId i) := by
  obtain ⟨hsame, hbuilder⟩ := s.cleared_same r.reqId i
  have hlt : i < s.config.maxNumReqs := (hind.lt hr).trans_le hind.fits
  refine ⟨?_, ⟨?_, ?_, ?_, ?_, ?_⟩, ?_⟩
  · rw [hsame.occupant, hbuilder]
    funext j
    simp only [InputBatch.forget, hadded, hmoved, replay, replayMoves, replayAdded,
      foldl_nil, replayRemoved, mem_append, mem_singleton]
    by_cases hij : j = i
    · rw [hij, update_self, if_pos (.inr rfl)]
    have hrows := congrFun h.rows j
    simp only [hadded, hmoved, replay, replayMoves, replayAdded, foldl_nil, replayRemoved] at hrows
    rw [update_of_ne hij, hrows]
    simp only [hij, or_false]
  · simp [hbuilder, hadded]
  · simp [hbuilder, hmoved]
  · rw [hbuilder, hsame.config]
    intro j hj
    rcases mem_append.mp hj with hj | hj
    · exact h.form.removed_lt j hj
    · rw [mem_singleton.mp hj]
      exact hlt
  · simp [hbuilder, hadded]
  · simp [hbuilder, hmoved]
  · simp [hbuilder, hmoved]

theorem Recorded.add
    (ho : Open s) (hmoved : s.builder.moved = []) {p : SamplingParams}
    (hp : r.params = .sampling p) {rest : List Nat} (hn : NextRow s i rest)
    (hcap : i < s.config.maxNumReqs) : Recorded occ (s.joined i r) := by
  obtain ⟨-, -, hnot, -, hmem⟩ := ho.occupant_nextRow hn
  obtain ⟨hsame, hbuilder⟩ := s.joined_same i r
  obtain ⟨-, hocc, -, hconfig⟩ := s.place_rest i r
  replace hbuilder : (s.joined i r).builder = { s.builder.popRemoved.2 with
      added := s.builder.added ++ [(i, r)] } := by
    rw [hbuilder, registered, hp]
    simp only [hn.added]
  have hmoved' : s.builder.popRemoved.2.moved = [] := hn.moved.trans hmoved
  have hcfg : (s.joined i r).config = s.config := hsame.config.trans hconfig
  refine ⟨?_, ⟨?_, ?_, ?_, ?_, ?_⟩, ?_⟩
  · have hrows := h.rows
    rw [hmoved] at hrows
    rw [hsame.occupant, hocc, hbuilder]
    simp only [hn.removed, hmoved', replay, replayMoves, foldl_nil]
    rw [replayAdded, foldl_append, foldl_cons, foldl_nil, hrows]
    funext j
    by_cases hj : j = i
    · rw [hj, update_self, update_self]
    · rw [update_of_ne hj, update_of_ne hj]
      refine replayAdded_agree (replayRemoved_mem occ ?_) s.builder.added
      simp [hmem, hj]
  · rw [hbuilder]
    intro e he
    simp only [hn.removed, mem_append, mem_singleton] at he ⊢
    rcases he with he | he
    · exact fun hrest => h.form.disjoint e he ((hmem e.1).mpr (.inr hrest))
    · rw [he]
      exact hnot
  · simp [hbuilder, hmoved']
  · rw [hbuilder, hcfg]
    intro j hj
    simp only [hn.removed] at hj
    exact h.form.removed_lt j ((hmem j).mpr (.inr hj))
  · rw [hbuilder, hcfg]
    intro e he
    simp only [mem_append, mem_singleton] at he
    rcases he with he | he
    · exact h.form.added_lt e he
    · rw [he]
      exact hcap
  · simp [hbuilder, hmoved']
  · simp [hbuilder, hmoved']

omit [DecidableEq ι] in
theorem Recorded.move
    
    (hbuilder : s'.builder = { s.builder with
      removed := removed
      moved := s.builder.moved ++ [m] })
    (hconfig : s'.config = s.config) (hsub : ∀ i ∈ removed, i ∈ s.builder.removed)
    (hrows : s'.occupant = replayMove none (replay removed s.builder.added s.builder.moved occ) m)
    (hm : m.2.2 = .unidirectional → m.1 ≠ m.2.1)
    (hlt : m.1 < s.config.maxNumReqs ∧ m.2.1 < s.config.maxNumReqs)
    (hapart : m.1 ∉ removed ∧ m.2.1 ∉ removed) : Recorded occ s' := by
  have hall {P : Nat × Nat × MoveDirectionality → Prop} (h1 : ∀ m' ∈ s.builder.moved, P m')
      (h2 : P m) : ∀ m' ∈ s.builder.moved ++ [m], P m' := by
    intro m' hm'
    rcases mem_append.mp hm' with hm' | hm'
    · exact h1 m' hm'
    · rw [mem_singleton.mp hm']
      exact h2
  refine ⟨?_, ⟨?_, ?_, ?_, ?_, ?_⟩, ?_⟩
  all_goals rw [hbuilder]
  · rw [hrows]
    simp only [replay, replayMoves, foldl_append, foldl_cons, foldl_nil]
  · exact fun e he hmem => h.form.disjoint e he (hsub _ hmem)
  · exact hall h.form.proper hm
  · rw [hconfig]
    exact fun i hi => h.form.removed_lt i (hsub i hi)
  · rw [hconfig]
    exact h.form.added_lt
  · rw [hconfig]
    exact hall h.form.moved_lt hlt
  · exact hall (fun m' hm' => ⟨fun hmem => (h.apart m' hm').1 (hsub _ hmem),
      fun hmem => (h.apart m' hm').2 (hsub _ hmem)⟩) hapart

theorem Recorded.swap
    (hind : Indexed s) (hvac : Vacant s) {a b : Request ι ε γ} {i j : Nat}
    (ha : s.occupant i = some a) (hb : s.occupant j = some b)
    (hpool : s.config.isPoolingModel = false) : Recorded occ (s.swapped a b i j) := by
  obtain ⟨hsame, hbuilder⟩ := s.swapped_same a b i j
  rw [if_neg (by simp [hpool])] at hbuilder
  have hfits := hind.fits
  have hi := hind.lt ha
  have hj := hind.lt hb
  refine h.move (m := (i, j, .swap)) hbuilder hsame.config (fun k hk => hk) ?_ ?_
    ⟨hi.trans_le hfits, hj.trans_le hfits⟩ ⟨fun hmem => ?_, fun hmem => ?_⟩
  · rw [hsame.occupant, ← h.rows]
    rfl
  · intro hd
    cases hd
  · rw [hvac i hmem] at ha
    cases ha
  · rw [hvac j hmem] at hb
    cases hb

theorem Recorded.shift
    {last dst : Nat}
    (hc : Condensing s last (dst :: removed)) (hb : s.builder.removed = dst :: removed)
    (hr : s.occupant last = some r) (hlt : dst < last) (hpool : s.config.isPoolingModel = false) :
    Recorded occ (s.shifted r last dst removed) := by
  obtain ⟨hsame, hbuilder⟩ := s.shifted_same r last dst removed
  rw [if_neg (by simp [hpool])] at hbuilder
  have hnodup := nodup_cons.mp hc.nodup
  have hfits := hc.fits
  have hlast := hc.last_lt
  refine h.move (m := (last, dst, .unidirectional)) hbuilder hsame.config ?_ ?_ ?_
    ⟨hlast.trans_le hfits, (hlt.trans hlast).trans_le hfits⟩ ⟨fun hmem => ?_, hnodup.1⟩
  · intro i hi
    rw [hb]
    exact mem_cons_of_mem _ hi
  · -- the row that is filled was empty: what the record says of it is overwritten
    rw [hsame.occupant]
    simp only [relocate, replayMove]
    rw [h.rows, hb]
    have hagree (i : Nat) (hi : i ≠ dst) :
        replay (dst :: removed) s.builder.added s.builder.moved occ i =
          replay removed s.builder.added s.builder.moved occ i := by
      refine replayMoves_agree none (c := dst) (fun j hj => ?_) (fun m hm => ?_) i hi
      · refine replayAdded_agree (replayRemoved_mem occ ?_) s.builder.added
        simp [hj]
      · obtain ⟨h1, h2⟩ := h.apart m hm
        rw [hb] at h1 h2
        exact ⟨fun he => h1 (he ▸ mem_cons_self ..), fun he => h2 (he ▸ mem_cons_self ..)⟩
    funext i
    by_cases hil : i = last
    · rw [hil, update_self, update_self]
    rw [update_of_ne hil, update_of_ne hil]
    by_cases hid : i = dst
    · rw [hid, copyRow_dst, copyRow_dst]
      exact hagree last (by omega)
    · rw [copyRow_ne _ _ hid, copyRow_ne _ _ hid]
      exact hagree i hid
  · simp only
    omega
  · have hnone := (hc.empty last le_rfl).mpr (mem_cons_of_mem _ hmem)
    rw [hr] at hnone
    cases hnone

end

theorem recorded_kept (occ : Nat → Option (Request ι ε γ)) (g : Guards ι ε γ) :
    Kept g (fun s => s.config.isPoolingModel = false → Recorded occ s) where
  remove ho hadded hmoved hr h hpool := by
    rw [(cleared_same ..).1.config] at hpool
    exact (h hpool).remove ho.toIndexed hadded hmoved hr
  add {s r i rest} ho hmoved hn hj _ h hpool := by
    have hcfg : (s.joined i r).config = s.config :=
      (s.joined_same i r).1.config.trans (s.place_rest i r).2.2.2
    rw [hcfg] at hpool
    cases hp : r.params with
    | sampling p => exact (h hpool).add ho hmoved hp hn (ho.nextRow_lt hn hj.room)
    | pooling requiresTokenIds =>
      have hkind := hj.suits.1
      rw [hp, hpool] at hkind
      cases hkind
  swap hind hvac ha hb _ h hpool := by
    rw [(swapped_same ..).1.config] at hpool
    exact (h hpool).swap hind hvac ha hb hpool
  sort {s} ho h hpool := by
    obtain ⟨hperm, -, hadded, hmoved⟩ := ensureRemovedSorted_spec ho.sorted
    have hr := h hpool
    refine ⟨?_, ⟨?_, ?_, ?_, ?_, ?_⟩, ?_⟩
    all_goals simp only [hadded, hmoved]
    · rw [hr.rows, replay]
      congr 2
      funext i
      exact replayRemoved_mem occ hperm.mem_iff
    · exact fun e he hmem => hr.form.disjoint e he (hperm.mem_iff.mpr hmem)
    · exact hr.form.proper
    · exact fun i hi => hr.form.removed_lt i (hperm.mem_iff.mpr hi)
    · exact hr.form.added_lt
    · exact hr.form.moved_lt
    · exact fun m hm => ⟨fun hmem => (hr.apart m hm).1 (hperm.mem_iff.mpr hmem),
        fun hmem => (hr.apart m hm).2 (hperm.mem_iff.mpr hmem)⟩
  move hc hb hr hlt _ h hpool := by
    rw [(shifted_same ..).1.config] at hpool
    exact (h hpool).shift hc hb hr hlt hpool
  trim _ _ h hpool := by
    obtain ⟨h1, h2, h3⟩ := h hpool
    exact ⟨h1, h2, h3⟩

theorem config_kept (config : Config) (g : Guards ι ε γ) : Kept g (fun s => s.config = config) where
  remove {s r i} _ _ _ _ h := (s.cleared_same r.reqId i).1.config.trans h
  add {s r i _} _ _ _ _ _ h := (s.joined_same i r).1.config.trans ((s.place_rest i r).2.2.2.trans h)
  swap {s a b i j} _ _ _ _ _ h := (s.swapped_same a b i j).1.config.trans h
  sort _ h := h
  move {s r last dst removed} _ _ _ _ _ h := (s.shifted_same r last dst removed).1.config.trans h
  trim _ _ h := h

theorem added_kept (Q : Request ι ε γ → Prop) (hg : ∀ s r, g.add s r → Q r) :
    Kept g (fun s => ∀ e ∈ s.builder.added, Q e.2) where
  remove {s r i} _ _ _ _ h := by
    rw [(s.cleared_same r.reqId i).2]
    exact h
  add {s r i _} _ _ hn _ hadd h := by
    rw [(s.joined_same i r).2, registered]
    split
    · rw [hn.added]
      intro e he
      rcases mem_append.mp he with he | he
      · exact h e he
      · rw [mem_singleton.mp he]
        exact hg s r hadd
    · rw [hn.added]
      exact h
  swap {s a b i j} _ _ _ _ _ h := by
    rw [(s.swapped_same a b i j).2]
    exact h
  sort {s} ho h := by
    simp only [(ensureRemovedSorted_spec ho.sorted).2.2.1]
    exact h
  move {s r last dst removed} _ _ _ _ _ h := by
    rw [(s.shifted_same r last dst removed).2]
    exact h
  trim _ _ h := h

/-- The rows `occ'` come from the rows `occ` by the changes of the update. -/
def Replays (n : Nat) (u : Option (BatchUpdate ι ε γ)) (occ occ' : Nat → Option (Request ι ε γ)) :
    Prop :=
  match u with
  | none => occ' = occ
  | some u => Recordable n u.removed u.added u.moved ∧ occ' = replay u.removed u.added u.moved occ

omit [DecidableEq ι] in
theorem Recorded.replays
    (h : Recorded occ s) : Replays s.config.maxNumReqs s.getAndReset occ s.occupant := by
  unfold getAndReset
  split_ifs with hempty
  · obtain ⟨hremoved, hmoved, hadded⟩ := hempty
    rw [List.isEmpty_iff] at hremoved hmoved hadded
    have hrows := h.rows
    rw [hremoved, hmoved, hadded] at hrows
    refine hrows.trans ?_
    funext i
    simp [replay, replayMoves, replayAdded, replayRemoved]
  refine ⟨⟨?_, h.form.proper, ?_, h.form.added_lt, h.form.moved_lt⟩, ?_⟩
  · simpa using h.form.disjoint
  · simpa using h.form.removed_lt
  · rw [h.rows, replay]
    congr 2
    funext i
    exact replayRemoved_mem occ (by simp)

omit [DecidableEq ι] in
theorem getAndReset_added {u : BatchUpdate ι ε γ}
    (h : s.getAndReset = some u) : u.added = s.builder.added := by
  unfold getAndReset at h
  split_ifs at h
  rw [← Option.some.inj h]

theorem Ready.step (h : Ready s) (hpool : s.config.isPoolingModel = false)
    {t : Step ι ε γ} (hm : g.Meets s t) {Q : Request ι ε γ → Prop} (hg : ∀ s r, g.add s r → Q r) :
    ∃ u s', s.step t = .ok (u, s') ∧ Ready s' ∧ s'.config = s.config ∧
      Replays s.config.maxNumReqs u s.occupant s'.occupant ∧
      ∀ v, u = some v → ∀ e ∈ v.added, Q e.2 := by
  have hstart : Recorded s.occupant s := by
    refine ⟨?_, ⟨?_, ?_, ?_, ?_, ?_⟩, ?_⟩
    all_goals rw [h.record]
    · funext i
      simp [BatchUpdateBuilder.empty, replay, replayMoves, replayAdded, replayRemoved]
    all_goals simp [BatchUpdateBuilder.empty]
  obtain ⟨s', hs', hrec, hstep, hready⟩ := (recorded_kept s.occupant g).step h (fun _ => hstart) hm
  obtain ⟨s'', hs'', hconfig, -⟩ := (config_kept s.config g).step h rfl hm
  obtain rfl : s' = s'' := Except.ok.inj (hs'.symm.trans hs'')
  obtain ⟨s'', hs'', hadded, -⟩ := (added_kept Q hg).step h
    (by simp [h.record, BatchUpdateBuilder.empty]) hm
  obtain rfl : s' = s'' := Except.ok.inj (hs'.symm.trans hs'')
  have hpool' : s'.config.isPoolingModel = false := by
    rw [hconfig]
    exact hpool
  have hstep' : s.step t = .ok (s'.getAndReset, { s' with builder := .empty }) := by
    rw [hstep, refreshMetadata, if_neg (by simp [hpool'])]
  refine ⟨_, _, hstep', hready, hconfig, ?_, fun v hv => ?_⟩
  · rw [← hconfig]
    exact (hrec hpool').replays
  · rw [getAndReset_added hv]
    exact hadded

end InputBatch
end TailBlend.Batch
