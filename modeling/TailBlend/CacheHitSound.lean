import TailBlend.CacheHit
import TailBlend.BlockPoolSpec
import TailBlend.Lib.Thread

/-! Every block of a hit is cached under the hash of its place and the id of its group. -/
namespace TailBlend.CacheHit
open BlockPool List

variable {p : BlockPool} {i : Nat} {e : KVCacheSpec × List Nat} {specs : List KVCacheSpec}
  {spec : KVCacheSpec} {eagle : List Nat} {g : AttentionGroup}

theorem getCachedBlock_eq_some {h : List BlockHash} {groupIds row : List Nat}
    (he : p.getCachedBlock h groupIds = some row) :
    row.length = groupIds.length ∧ ∀ (j g : Nat), groupIds[j]? = some g →
      ∃ b, row[j]? = some b ∧ p.getOneBlock (h, g) = some b := by
  unfold getCachedBlock at he
  induction groupIds generalizing row with
  | nil =>
    cases he
    simp
  | cons g gs ih =>
    simp only [mapM_cons, Option.bind_eq_bind, Option.bind_eq_some_iff, Option.pure_def,
      Option.some.injEq] at he
    obtain ⟨b, hb, bs, hbs, rfl⟩ := he
    obtain ⟨hlen, hget⟩ := ih hbs
    refine ⟨by simp [hlen], ?_⟩
    intro j g' hj
    cases j with
    | zero =>
      cases hj
      exact ⟨b, by simp, hb⟩
    | succ j => simpa using hget j g' hj

/-- Each row is all null or the cached row of the hash at its index. -/
def RowsSound (p : BlockPool) (hashes : List (List BlockHash)) (groupIds : List Nat)
    (rows : Rows) : Prop :=
  ∀ (i : Nat) row, rows[i]? = some row → row = nullRow groupIds ∨
    ∃ h, hashes[i]? = some h ∧ p.getCachedBlock h groupIds = some row

section rows
variable {p : BlockPool} {hashes : List (List BlockHash)} {groupIds : List Nat} {rows : Rows}

theorem RowsSound.take (h : RowsSound p hashes groupIds rows) (n : Nat) :
    RowsSound p hashes groupIds (rows.take n) := by
  intro i row hi
  rw [getElem?_take] at hi
  split at hi
  · exact h i row hi
  · cases hi

theorem RowsSound.dropLast (h : RowsSound p hashes groupIds rows) :
    RowsSound p hashes groupIds rows.dropLast := by
  rw [dropLast_eq_take]
  exact h.take _

variable {i n blockSize alignment : Nat} {useEagle : Bool}

theorem RowsSound.set (h : RowsSound p hashes groupIds rows) {k : List BlockHash} {row : List Nat}
    (hk : hashes[i]? = some k) (hr : p.getCachedBlock k groupIds = some row) :
    RowsSound p hashes groupIds (rows.set i row) := by
  intro j row' hj
  rw [getElem?_set] at hj
  split at hj
  · rename_i hij
    subst hij
    split at hj
    · cases hj
      exact .inr ⟨k, hk, hr⟩
    · cases hj
  · exact h j row' hj

theorem rowsSound_replicate (p : BlockPool) (hashes : List (List BlockHash)) (groupIds : List Nat)
    (n : Nat) : RowsSound p hashes groupIds (replicate n (nullRow groupIds)) := by
  intro i row hi
  exact .inl (eq_of_mem_replicate (mem_of_getElem? hi))

theorem rowsSound_nil (p : BlockPool) (hashes : List (List BlockHash)) (groupIds : List Nat) :
    RowsSound p hashes groupIds [] := by
  intro i row hi
  simp at hi

theorem rowsSound_append_null {rows : Rows} (h : ∀ (i : Nat) row, rows[i]? = some row →
      ∃ k, hashes[n + i]? = some k ∧ p.getCachedBlock k groupIds = some row) :
    RowsSound p hashes groupIds (replicate n (nullRow groupIds) ++ rows) := by
  intro i row hi
  rw [getElem?_append] at hi
  simp only [length_replicate] at hi
  split at hi
  · exact .inl (eq_of_mem_replicate (mem_of_getElem? hi))
  · obtain ⟨k, hk, hr⟩ := h (i - n) row hi
    exact .inr ⟨k, by rwa [Nat.add_sub_cancel' (by omega)] at hk, hr⟩

theorem scan_sound (p : BlockPool) (groupIds : List Nat) (hs : List (List BlockHash)) (i : Nat)
    (row : List Nat) (hi : (scan p groupIds hs)[i]? = some row) :
    ∃ k, hs[i]? = some k ∧ p.getCachedBlock k groupIds = some row := by
  induction hs generalizing i with
  | nil => simp [scan] at hi
  | cons k ks ih =>
    unfold scan at hi
    split at hi
    · rename_i r hr
      cases i with
      | zero =>
        cases hi
        exact ⟨k, by simp, hr⟩
      | succ i => simpa using ih i hi
    · simp at hi

theorem scanFrom_sound (he : scanFrom p hashes groupIds n i = .ok rows) :
    ∀ (j : Nat) row, rows[j]? = some row →
      ∃ k, hashes[i + j]? = some k ∧ p.getCachedBlock k groupIds = some row := by
  fun_induction scanFrom generalizing rows with
  | case1 =>
    cases he
    simp
  | case2 => cases he
  | case3 n i k hk r hr ih =>
    rw [seq_ok_iff] at he
    obtain ⟨rest, hrest, he⟩ := he
    cases he
    rintro (_ | j) row hj
    · cases hj
      exact ⟨k, hk, hr⟩
    · have := ih hrest j row hj
      rwa [Nat.add_assoc, Nat.add_comm 1 j] at this
  | case4 =>
    cases he
    simp

theorem fullAttention_sound (p : BlockPool) (hashes : List (List BlockHash)) (maxLength : Nat)
    (groupIds : List Nat) (blockSize : Nat) (useEagle : Bool) (alignment : Nat) :
    RowsSound p hashes groupIds
      (fullAttention p hashes maxLength groupIds blockSize useEagle alignment) := by
  have hscan : RowsSound p hashes groupIds
      (scan p groupIds (hashes.take (maxLength / blockSize))) := by
    intro i row hi
    obtain ⟨k, hk, hr⟩ := scan_sound p groupIds _ i row hi
    rw [getElem?_take] at hk
    split at hk
    · exact .inr ⟨k, hk, hr⟩
    · cases hk
  refine RowsSound.take ?_ _
  unfold popEagle
  split
  · exact hscan.dropLast
  · exact hscan

theorem slidingSearch_sound {needed run : Nat} {computed : Rows} {res : Rows × Nat × Bool}
    (hc : RowsSound p hashes groupIds computed)
    (he : slidingSearch p hashes groupIds blockSize useEagle alignment needed i computed run =
      .ok res) : RowsSound p hashes groupIds res.1 := by
  fun_induction slidingSearch with
  | case1 =>
    cases he
    exact hc
  | case2 => cases he
  | case3 i computed run k hk row hr hskip ih => exact ih hc he
  | case4 i computed run k hk row hr hskip hn =>
    cases he
    exact (hc.set hk hr).take _
  | case5 i computed run k hk row hr hskip hn ih => exact ih (hc.set hk hr) he
  | case6 i computed run k hk hr ih => exact ih hc he

theorem slidingWindow_sound {maxLength window : Nat}
    (he : slidingWindow p hashes maxLength groupIds blockSize window useEagle alignment = .ok rows)
    : RowsSound p hashes groupIds rows := by
  unfold slidingWindow at he
  rw [seq_ok_iff] at he
  obtain ⟨⟨computed, run, found⟩, hs, he⟩ := he
  have hc := slidingSearch_sound (rowsSound_replicate p hashes groupIds _) hs
  simp only at he
  set computed' := if found then computed else popUnaligned blockSize alignment (computed.take run)
    with hdef
  have hc' : RowsSound p hashes groupIds computed' := by
    rw [hdef]
    split
    · exact hc
    · exact (hc.take run).take _
  by_cases hpop : useEagle = true ∧ computed' ≠ []
  · rw [if_pos hpop] at he
    cases he
    exact hc'.dropLast.take _
  · rw [if_neg hpop] at he
    rw [← Except.ok.inj he]
    exact hc'

theorem mambaSearch_sound (he : mambaSearch p hashes groupIds blockSize alignment n = .ok rows) :
    RowsSound p hashes groupIds rows := by
  fun_induction mambaSearch with
  | case1 =>
    cases he
    exact rowsSound_nil p hashes groupIds
  | case2 => cases he
  | case3 i k hk row hr hskip ih => exact ih he
  | case4 i k hk row hr =>
    cases he
    refine rowsSound_append_null ?_
    rintro (_ | j) row' hj
    · cases hj
      exact ⟨k, hk, hr⟩
    · cases hj
  | case5 i k hk hr ih => exact ih he

theorem findLongestCacheHit_sound {spec : KVCacheSpec} {maxLength : Nat}
    (he : findLongestCacheHit p spec hashes maxLength groupIds useEagle alignment = .ok rows) :
    RowsSound p hashes groupIds rows := by
  unfold findLongestCacheHit at he
  split at he
  · cases he
    exact fullAttention_sound p hashes maxLength groupIds spec.blockSize useEagle alignment
  · exact slidingWindow_sound he
  · unfold chunkedLocal at he
    simp only [seq_ok_iff] at he
    obtain ⟨-, -, -, -, hits, hs, he⟩ := he
    cases he
    exact rowsSound_append_null (scanFrom_sound hs)
  · exact mambaSearch_sound he
  · cases he

end rows
theorem count_le_one_of_index {l : List Nat} {b : Nat}
    (h : ∀ i j : Nat, l[i]? = some b → l[j]? = some b → i = j) : l.count b ≤ 1 := by
  induction l with
  | nil => simp
  | cons x xs ih =>
    have hxs : xs.count b ≤ 1 := ih (fun i j hi hj => by
      simpa using h (i + 1) (j + 1) hi hj)
    by_cases hx : x = b
    · have hnot : b ∉ xs := by
        intro hm
        obtain ⟨j, hj⟩ := mem_iff_getElem?.mp hm
        have := h 0 (j + 1) (by simp [hx]) hj
        omega
      simp [hx, count_eq_zero.mpr hnot]
    · simpa [hx] using hxs

/-- Each block of the list is null or the first block cached for its place. -/
def BlocksSound (p : BlockPool) (hashes : List (List BlockHash)) (groupId : Nat)
    (blocks : List Nat) : Prop :=
  ∀ (i b : Nat), blocks[i]? = some b → b ≠ 0 →
    ∃ h, hashes[i]? = some h ∧ p.getOneBlock (h, groupId) = some b

theorem column_sound {hashes : List (List BlockHash)} {groupIds : List Nat} {rows : Rows}
    (h : RowsSound p hashes groupIds rows) {j g : Nat} (hj : groupIds[j]? = some g) :
    BlocksSound p hashes g (column rows j) := by
  intro i b hi hb
  simp only [column, getElem?_map, Option.map_eq_some_iff] at hi
  obtain ⟨row, hrow, hrb⟩ := hi
  rcases h i row hrow with hnull | ⟨k, hk, hc⟩
  · have hlt : j < groupIds.length := (List.getElem?_eq_some_iff.mp hj).1
    simp [hnull, nullRow, hlt] at hrb
    exact absurd hrb.symm hb
  · obtain ⟨c, hc1, hc2⟩ := (getCachedBlock_eq_some hc).2 j g hj
    rw [getD_eq_getElem?_getD, hc1] at hrb
    exact ⟨k, hk, by rw [hc2, ← hrb]; rfl⟩

section sound
variable {p : BlockPool} {hashes : List (List BlockHash)} {g : Nat} {blocks : List Nat}

variable {b : Nat}

section
variable (h : BlocksSound p hashes g blocks) (hh : HashOK p)
include h hh

theorem BlocksSound.hash {i : Nat} (hi : blocks[i]? = some b) (hb : b ≠ 0) :
    ∃ k, hashes[i]? = some k ∧ p.blockHash b = some (k, g) := by
  obtain ⟨k, hk, hc⟩ := h i b hi hb
  exact ⟨k, hk, (hh.cached_iff b (k, g)).mp (mem_of_mem_head? hc)⟩

theorem BlocksSound.key (hm : b ∈ blocks) (hb : b ≠ 0) :
    ∃ key, p.blockHash b = some key ∧ key.2 = g := by
  obtain ⟨i, hi⟩ := mem_iff_getElem?.mp hm
  obtain ⟨k, -, hk⟩ := h.hash hh hi hb
  exact ⟨(k, g), hk, rfl⟩

theorem BlocksSound.once (hn : hashes.Nodup) (hb : b ≠ 0) : blocks.count b ≤ 1 := by
  refine count_le_one_of_index ?_
  intro i j hi hj
  obtain ⟨k, hk, hkb⟩ := h.hash hh hi hb
  obtain ⟨k', hk', hkb'⟩ := h.hash hh hj hb
  rw [hkb] at hkb'
  cases hkb'
  obtain ⟨hi', he⟩ := List.getElem?_eq_some_iff.mp hk
  obtain ⟨hj', he'⟩ := List.getElem?_eq_some_iff.mp hk'
  exact (hn.getElem_inj_iff).mp (he.trans he'.symm)

end

end sound

/-! The attention groups partition the cache groups by spec. -/

theorem mem_addGroup {gs : List (KVCacheSpec × List Nat)}
    (he : e ∈ addGroup i spec gs) :
    e ∈ gs ∨ e.1 = spec ∧ ∀ k ∈ e.2, k = i ∨ ∃ e' ∈ gs, e'.1 = spec ∧ k ∈ e'.2 := by
  induction gs with
  | nil =>
    simp only [addGroup, mem_singleton] at he
    subst he
    simp
  | cons a as ih =>
    unfold addGroup at he
    split at he
    · rename_i ha
      rcases mem_cons.mp he with rfl | he
      · refine .inr ⟨ha, ?_⟩
        intro k hk
        rcases mem_append.mp hk with hk | hk
        · exact .inr ⟨a, by simp, ha, hk⟩
        · exact .inl (mem_singleton.mp hk)
      · exact .inl (by simp [he])
    rcases mem_cons.mp he with rfl | he
    · exact .inl (by simp)
    rcases ih he with h | ⟨h1, h2⟩
    · exact .inl (by simp [h])
    refine .inr ⟨h1, fun k hk => ?_⟩
    rcases h2 k hk with h | ⟨e', he', h⟩
    · exact .inl h
    · exact .inr ⟨e', by simp [he'], h⟩

theorem groupBySpec_spec (he : e ∈ groupBySpec specs) (hi : i ∈ e.2) : specs[i]? = some e.1 := by
  suffices hinv : ∀ (es : List (KVCacheSpec × Nat)) gs,
      (∀ x ∈ es, specs[x.2]? = some x.1) →
      (∀ e ∈ gs, ∀ i ∈ e.2, specs[i]? = some e.1) →
      ∀ e ∈ es.foldl (fun gs s => addGroup s.2 s.1 gs) gs, ∀ i ∈ e.2, specs[i]? = some e.1 by
    refine hinv specs.zipIdx [] ?_ (by simp) e he i hi
    rintro ⟨s, k⟩ hx
    exact mem_zipIdx_iff_getElem?.mp hx
  intro es
  induction es with
  | nil =>
    intro gs _ h
    exact h
  | cons x xs ih =>
    intro gs hx h
    refine ih _ (fun y hy => hx y (by simp [hy])) ?_
    intro e he k hk
    rcases mem_addGroup he with hm | ⟨h1, h2⟩
    · exact h e hm k hk
    rcases h2 k hk with rfl | ⟨e', he', h3, h4⟩
    · rw [h1]
      exact hx x (by simp)
    · rw [h1, ← h3]
      exact h e' he' k h4

theorem attentionGroups_spec
    (hg : g ∈ attentionGroups specs eagle) (hi : i ∈ g.groupIds) : specs[i]? = some g.spec := by
  simp only [attentionGroups, mem_append, mem_filter, mem_map] at hg
  rcases hg with ⟨⟨e, he, rfl⟩, -⟩ | ⟨⟨e, he, rfl⟩, -⟩ <;> exact groupBySpec_spec he hi

section hybridRows
variable {p : BlockPool} {blockHashes : List BlockHash} {maxLen lcm : Nat}
  {groups : List AttentionGroup} {P : AttentionGroup → Rows → Prop}

/-- Every search for a group of the model returns rows with `P`. -/
def SearchesYield (p : BlockPool) (blockHashes : List BlockHash) (lcm : Nat)
    (groups : List AttentionGroup) (P : AttentionGroup → Rows → Prop) : Prop :=
  ∀ g ∈ groups, ∀ maxLength useEagle rows, findLongestCacheHit p g.spec
    (hashesAt blockHashes p.hashBlockSize g.spec.blockSize) maxLength g.groupIds useEagle lcm =
      .ok rows → P g rows

def StateRows (groups : List AttentionGroup) (P : AttentionGroup → Rows → Prop) (s : HitState) :
    Prop :=
  ∀ (idx : Nat) g, groups[idx]? = some g → ∀ rows, s.hitRows idx = some rows → P g rows

variable {s s' : HitState} {L : Nat} {specs : List KVCacheSpec} {blocks : List (List Nat)}

theorem passGroup_rows {e : AttentionGroup × Nat} (he : e ∈ groups.zipIdx)
    (hP : SearchesYield p blockHashes lcm groups P) (hs : StateRows groups P s)
    (h : passGroup p blockHashes maxLen lcm s e = .ok s') : StateRows groups P s' := by
  obtain ⟨g, idx⟩ := e
  rw [mem_zipIdx_iff_getElem?] at he
  unfold passGroup at h
  simp only at h
  by_cases hfull : g.spec.kind.isFullAttention = true ∧ (s.hitRows idx).isSome = true
  · rw [if_pos hfull] at h
    cases h
    exact hs
  rw [if_neg hfull, seq_ok_iff] at h
  obtain ⟨rows, hrows, h⟩ := h
  cases h
  intro k g' hg' rows' hr'
  simp only at hr'
  by_cases hk : k = idx
  · subst hk
    rw [hg'] at he
    cases he
    rw [Function.update_self] at hr'
    cases hr'
    exact hP g (mem_of_getElem? hg') _ _ _ hrows
  · rw [Function.update_of_ne hk] at hr'
    exact hs k g' hg' rows' hr'

theorem fixedPoint_rows {fuel hitLength : Nat} (hP : SearchesYield p blockHashes lcm groups P)
    (hs : StateRows groups P s)
    (h : fixedPoint p blockHashes maxLen lcm groups fuel hitLength s = .ok (some (L, s'))) :
    StateRows groups P s' := by
  induction fuel generalizing hitLength s with
  | zero => cases h
  | succ fuel ih =>
    unfold fixedPoint at h
    rw [seq_ok_iff] at h
    obtain ⟨s1, h1, h⟩ := h
    have hs0 : StateRows groups P { s with currHitLength := hitLength } := hs
    have hs1 : StateRows groups P s1 := foldlM_induct (StateRows groups P)
      (fun _ he _ _ hs h => passGroup_rows he hP hs h) hs0 h1
    split_ifs at h
    · cases h
      exact hs1
    · cases h
      exact hs1
    · exact ih hs1 h

theorem finalRows_rows (hnil : ∀ g, P g []) (htake : ∀ g rows n, P g rows → P g (rows.take n))
    (hs : StateRows groups P s) {idx : Nat} (hg : groups[idx]? = some g) :
    P g (finalRows groups L s idx) := by
  have hrows : P g ((s.hitRows idx).getD []) := by
    cases hr : s.hitRows idx with
    | none => exact hnil g
    | some rows => exact hs idx g hg rows hr
  unfold finalRows
  split
  · split
    · exact htake g _ _ hrows
    · exact hrows
  · exact hrows

theorem hybrid_rows
    (hP : SearchesYield p blockHashes (lcmBlockSize (attentionGroups specs eagle))
      (attentionGroups specs eagle) P) (hnil : ∀ g, P g [])
    (htake : ∀ g rows n, P g rows → P g (rows.take n))
    (h : hybrid p specs eagle blockHashes maxLen = .ok (some (blocks, L))) {i : Nat}
    (hi : specs[i]? = some spec) :
    blocks.getD i [] = [] ∨ ∃ g k rows, g.spec = spec ∧ g.groupIds[k]? = some i ∧ P g rows ∧
      blocks.getD i [] = column rows k := by
  unfold hybrid at h
  simp only [seq_ok_iff] at h
  obtain ⟨res, hres, h⟩ := h
  cases res with
  | none => cases h
  | some r =>
    cases h
    have hs := fixedPoint_rows hP (s := _) (by intro idx g _ rows hr; cases hr) hres
    have hlt : i < specs.length := (List.getElem?_eq_some_iff.mp hi).1
    simp only [getD_eq_getElem?_getD, getElem?_map, getElem?_range hlt, Option.map_some]
    unfold groupBlocks
    split
    · exact .inl rfl
    rename_i g idx hfind
    have hmem := mem_of_find?_eq_some hfind
    have hin : i ∈ g.groupIds := by simpa using find?_some hfind
    rw [mem_zipIdx_iff_getElem?] at hmem
    have hspec := attentionGroups_spec (mem_of_getElem? hmem) hin
    rw [hi] at hspec
    cases hspec
    exact .inr ⟨g, _, _, rfl, getElem?_idxOf hin, finalRows_rows hnil htake hs hmem, rfl⟩

theorem hybrid_sound
    (h : hybrid p specs eagle blockHashes maxLen = .ok (some (blocks, L))) {i : Nat}
    (hi : specs[i]? = some spec) :
    BlocksSound p (hashesAt blockHashes p.hashBlockSize spec.blockSize) i (blocks.getD i []) := by
  rcases hybrid_rows (P := fun g rows => RowsSound p
      (hashesAt blockHashes p.hashBlockSize g.spec.blockSize) g.groupIds rows)
    (fun _ _ _ _ _ hrows => findLongestCacheHit_sound hrows) (fun _ => rowsSound_nil _ _ _)
    (fun _ _ n hr => hr.take n) h hi with hnil | ⟨g, k, rows, rfl, hk, hrows, heq⟩
  · rw [hnil]
    intro j b hj
    simp at hj
  · rw [heq]
    exact column_sound hrows hk

end hybridRows

end TailBlend.CacheHit
