import Mathlib.Data.List.Nodup

/-! Dictionaries whose insertion order is read: association lists with one entry per key. -/
namespace TailBlend.OrderedDict
open List
variable {α β : Type*} [DecidableEq α]

section
variable (d : List (α × β))

def get? (a : α) : Option β := (d.find? (fun e => e.1 = a)).map Prod.snd

/-- `d[a] = b`: a present key keeps its place. -/
def set (a : α) (b : β) : List (α × β) :=
  if a ∈ d.map Prod.fst then d.map (fun e => if e.1 = a then (a, b) else e) else d ++ [(a, b)]

def erase (a : α) : List (α × β) := d.filter (fun e => e.1 ≠ a)

def moveToEnd (a : α) : List (α × β) :=
  erase d a ++ d.filter (fun e => e.1 = a)

theorem keys_set (a : α) (b : β) : (set d a b).map Prod.fst =
      if a ∈ d.map Prod.fst then d.map Prod.fst else d.map Prod.fst ++ [a] := by
  unfold set
  split
  · rw [map_map]
    apply map_congr_left
    intro e he
    by_cases h : e.1 = a <;> simp [h]
  · simp

theorem keys_erase (a : α) :
    (erase d a).map Prod.fst = (d.map Prod.fst).filter (fun k => k ≠ a) := by
  rw [filter_map]
  rfl

end

variable {d d' : List (α × β)} {a : α} {b : β}

theorem nodup_keys_set (hd : (d.map Prod.fst).Nodup) (a : α) (b : β) :
    ((set d a b).map Prod.fst).Nodup := by
  rw [keys_set]
  split
  · exact hd
  rename_i h
  exact nodup_append.mpr ⟨hd, nodup_singleton a, by
    intro x hx y hy hxy
    obtain rfl : y = a := by simpa using hy
    exact h (hxy ▸ hx)⟩

theorem nodup_keys_erase (hd : (d.map Prod.fst).Nodup) (a : α) :
    ((erase d a).map Prod.fst).Nodup := by
  rw [keys_erase]
  exact hd.filter _

theorem get?_eq_none : get? d a = none ↔ a ∉ d.map Prod.fst := by
  rw [get?, Option.map_eq_none_iff, find?_eq_none]
  simp only [decide_eq_true_eq, mem_map, not_exists, not_and]

theorem get?_append (d d' : List (α × β)) (a : α) :
    get? (d ++ d') a = (get? d a).or (get? d' a) := by
  unfold get?
  rw [find?_append, Option.map_or]

theorem get?_set (d : List (α × β)) (a c : α) (b : β) :
    get? (set d a b) c = if c = a then some b else get? d c := by
  unfold set
  split_ifs with hin hc hc
  · subst hc
    induction d with
    | nil => simp at hin
    | cons e d ih =>
      by_cases he : e.1 = c
      · simp [get?, he]
      · have hin' : c ∈ d.map Prod.fst := by simpa [Ne.symm he] using hin
        simpa [get?, he] using ih hin'
  · unfold get?
    clear hin
    induction d with
    | nil => rfl
    | cons e d ih =>
      by_cases he : e.1 = a
      · have hne : e.1 ≠ c := fun h => hc (h.symm.trans he)
        rw [map_cons, if_pos he, find?_cons_of_neg (by simpa using Ne.symm hc),
          find?_cons_of_neg (by simpa using hne)]
        exact ih
      rw [map_cons, if_neg he]
      by_cases hec : e.1 = c
      · rw [find?_cons_of_pos (by simpa using hec), find?_cons_of_pos (by simpa using hec)]
      · rw [find?_cons_of_neg (by simpa using hec), find?_cons_of_neg (by simpa using hec)]
        exact ih
  · subst hc
    rw [get?_append, get?_eq_none.mpr hin]
    simp [get?]
  · simp [get?, Ne.symm hc]

theorem get?_erase_of_ne (d : List (α × β)) {c : α} (h : c ≠ a) :
    get? (erase d a) c = get? d c := by
  unfold get? erase
  congr 1
  rw [find?_filter]
  congr 1
  funext e
  by_cases he : e.1 = c
  · simp [he, h]
  · simp [he]

theorem get?_erase_self (d : List (α × β)) (a : α) : get? (erase d a) a = none := by
  rw [get?_eq_none, keys_erase]
  simp

theorem mem_iff_get? (hd : (d.map Prod.fst).Nodup) : (a, b) ∈ d ↔ get? d a = some b := by
  induction d with
  | nil => simp [get?]
  | cons e d ih =>
    rw [map_cons, nodup_cons] at hd
    by_cases he : e.1 = a
    · subst he
      have hnot : (e.1, b) ∉ d := fun h => hd.1 (mem_map.mpr ⟨_, h, rfl⟩)
      rw [mem_cons, or_iff_left hnot]
      simp [get?, Prod.ext_iff, eq_comm]
    · have hne : (a, b) ≠ e := fun h => he (by rw [← h])
      rw [mem_cons, or_iff_right hne, ih hd.2]
      simp [get?, he]

theorem mem_keys_of_get? (h : get? d a = some b) : a ∈ d.map Prod.fst := by
  by_contra hnot
  rw [get?_eq_none.mpr hnot] at h
  exact absurd h (by simp)

theorem get?_of_mem_keys (h : a ∈ d.map Prod.fst) : ∃ b, get? d a = some b :=
  Option.ne_none_iff_exists'.mp (fun hnone => get?_eq_none.mp hnone h)

theorem set_of_notMem (h : a ∉ d.map Prod.fst) (b : β) : set d a b = d ++ [(a, b)] := if_neg h

theorem erase_of_notMem (h : a ∉ d.map Prod.fst) : erase d a = d := by
  refine filter_eq_self.mpr fun e he => ?_
  simp only [decide_eq_true_eq]
  exact fun heq => h (mem_map.mpr ⟨e, he, heq⟩)

theorem erase_append (d d' : List (α × β)) (a : α) :
    erase (d ++ d') a = erase d a ++ erase d' a := filter_append ..

theorem update_of_notMem (h : a ∉ d.map Prod.fst) (b : β) :
    d.map (fun e => if e.1 = a then (a, b) else e) = d := by
  conv_rhs => rw [← map_id d]
  refine map_congr_left fun e he => ?_
  exact if_neg fun heq => h (mem_map.mpr ⟨e, he, heq⟩)

theorem set_append_left (h : a ∈ d.map Prod.fst) (h' : a ∉ d'.map Prod.fst) (b : β) :
    set (d ++ d') a b = set d a b ++ d' := by
  have hin : a ∈ (d ++ d').map Prod.fst := by
    rw [map_append]
    exact mem_append_left _ h
  unfold set
  rw [if_pos hin, if_pos h, map_append, update_of_notMem h']

theorem set_append_right (h : a ∉ d.map Prod.fst) (h' : a ∈ d'.map Prod.fst) (b : β) :
    set (d ++ d') a b = d ++ set d' a b := by
  have hin : a ∈ (d ++ d').map Prod.fst := by
    rw [map_append]
    exact mem_append_right _ h'
  unfold set
  rw [if_pos hin, if_pos h', map_append, update_of_notMem h]

/-- `for a in l: del d[a]`. -/
theorem foldl_erase (d l : List (α × β)) :
    l.foldl (fun d e => erase d e.1) d = d.filter (fun e => e.1 ∉ l.map Prod.fst) := by
  induction l generalizing d with
  | nil => simp
  | cons a l ih =>
    rw [foldl_cons, ih, erase, filter_filter]
    refine filter_congr fun e _ => ?_
    simp only [map_cons, mem_cons, not_or, Bool.decide_and]
    exact Bool.and_comm _ _

theorem moveToEnd_perm (d : List (α × β)) (a : α) : (moveToEnd d a).Perm d := by
  have h := filter_append_perm (fun e : α × β => decide (e.1 ≠ a)) d
  simpa [moveToEnd, erase] using h

theorem perm_cons_erase (hd : (d.map Prod.fst).Nodup) (h : get? d a = some b) :
    d.Perm ((a, b) :: erase d a) := by
  have hmem : (a, b) ∈ d := (mem_iff_get? hd).mpr h
  refine (perm_ext_iff_of_nodup hd.of_map ?_).mpr fun e => ?_
  · refine nodup_cons.mpr ⟨?_, hd.of_map.filter _⟩
    simp [erase]
  obtain ⟨c, v⟩ := e
  rw [mem_cons, erase, mem_filter]
  constructor
  · intro he
    by_cases hc : c = a
    · subst hc
      have hv : get? d c = some v := (mem_iff_get? hd).mp he
      exact .inl (by rw [Option.some.inj (hv.symm.trans h)])
    · exact .inr ⟨he, by simpa using hc⟩
  · rintro (he | he)
    · rw [he]
      exact hmem
    · exact he.1

theorem mem_of_mem_set {e : α × β} (h : e ∈ set d a b) : e ∈ d ∨ e = (a, b) := by
  unfold set at h
  split at h
  · obtain ⟨x, hx, rfl⟩ := mem_map.mp h
    by_cases hxa : x.1 = a
    · exact .inr (if_pos hxa)
    · exact .inl (by rwa [if_neg hxa])
  · simpa using h

/-- The items of a dictionary that is updated with those of a list. -/
theorem foldl_set_spec (l : List (α × β)) (hd : (d.map Prod.fst).Nodup) :
    ((l.foldl (fun d e => set d e.1 e.2) d).map Prod.fst).Nodup ∧
      ∀ e ∈ l.foldl (fun d e => set d e.1 e.2) d, e ∈ d ∨ e ∈ l := by
  induction l generalizing d with
  | nil => exact ⟨hd, fun e he => .inl he⟩
  | cons x l ih =>
    obtain ⟨hnodup, hmem⟩ := ih (nodup_keys_set hd x.1 x.2)
    refine ⟨hnodup, fun e he => (hmem e he).elim (fun hset => ?_) (.inr ∘ mem_cons_of_mem x)⟩
    exact (mem_of_mem_set hset).imp_right (by rintro rfl; exact mem_cons_self)

end TailBlend.OrderedDict
