import TailBlend.Lib.OrderedDict
import TailBlend.Lib.Py

/-! The replacement policies of the CPU cache: which blocks are resident, which of them an
eviction takes, and what ARC remembers of evicted ones. -/
namespace TailBlend
open OrderedDict List

/-- What a `c_int32` field holds after `n` is assigned to it. -/
def cInt32 (n : Int) : Int := n.bmod (2 ^ 32)

structure BlockStatus where
  refCnt : Int
  blockId : Nat
  deriving DecidableEq, Repr

namespace BlockStatus

def new (blockId : Nat) : BlockStatus := ⟨-1, blockId⟩

abbrev IsReady (b : BlockStatus) : Prop := 0 ≤ b.refCnt

end BlockStatus

/-- `int(x)`: towards zero. -/
def pyInt (x : ℚ) : Int := x.num.tdiv x.den

/-- Rounding to the nearest float, where the integers up to the capacity are floats. -/
structure Rounding (capacity : Nat) where
  round : ℚ → ℚ
  mono : Monotone round
  idem : ∀ x, round (round x) = round x
  natCast : ∀ n : Nat, n ≤ capacity → round n = n

def Rounding.exact (capacity : Nat) : Rounding capacity where
  round := id
  mono := monotone_id
  idem _ := rfl
  natCast _ _ := rfl

variable {κ : Type} [DecidableEq κ]

abbrev Evictable (guarded : List κ) (e : κ × BlockStatus) : Prop :=
  e.2.refCnt = 0 ∧ e.1 ∉ guarded

structure LRUCachePolicy (κ : Type) where
  blocks : List (κ × BlockStatus)
  deriving DecidableEq

namespace LRUCachePolicy

def get (p : LRUCachePolicy κ) (key : κ) : Option BlockStatus := get? p.blocks key

variable (p : LRUCachePolicy κ)

def insert (key : κ) (block : BlockStatus) : LRUCachePolicy κ :=
  ⟨set p.blocks key block⟩

def remove (key : κ) : Except PyError (LRUCachePolicy κ) :=
  if key ∈ p.blocks.map Prod.fst then .ok ⟨erase p.blocks key⟩ else .error .keyError

def touchKey (key : κ) : LRUCachePolicy κ :=
  if key ∈ p.blocks.map Prod.fst then ⟨moveToEnd p.blocks key⟩ else p

/-- `touch(keys)`, from the last key to the first. -/
def touch (keys : List κ) : LRUCachePolicy κ :=
  keys.foldr (fun key p => p.touchKey key) p

theorem touchKey_perm (key : κ) : (p.touchKey key).blocks.Perm p.blocks := by
  unfold touchKey
  split_ifs
  · exact moveToEnd_perm p.blocks key
  · exact Perm.refl _

def collect (n : Nat) (guarded : List κ) :
    List (κ × BlockStatus) → List (κ × BlockStatus) → List (κ × BlockStatus)
  | candidates, [] => candidates
  | candidates, e :: items =>
    if Evictable guarded e then
      if (candidates ++ [e]).length = n then candidates ++ [e]
      else collect n guarded (candidates ++ [e]) items
    else collect n guarded candidates items

def evict (n : Nat) (guarded : List κ) : Option (List (κ × BlockStatus) × LRUCachePolicy κ) :=
  if n = 0 then some ([], p)
  else
    let candidates := collect n guarded [] p.blocks
    if candidates.length < n then none
    else some (candidates, ⟨candidates.foldl (fun d e => erase d e.1) p.blocks⟩)

theorem collect_eq {n : Nat} (guarded : List κ) (candidates items : List (κ × BlockStatus))
    (h : candidates.length < n) :
    collect n guarded candidates items =
      candidates ++ (items.filter (fun e => Evictable guarded e)).take (n - candidates.length) := by
  induction items generalizing candidates with
  | nil => simp [collect]
  | cons e items ih =>
    rw [collect]
    by_cases he : Evictable guarded e
    · rw [if_pos he, filter_cons_of_pos (by simpa using he)]
      have hlen : (candidates ++ [e]).length = candidates.length + 1 := by simp
      obtain ⟨k, hk⟩ : ∃ k, n - candidates.length = k + 1 := ⟨n - candidates.length - 1, by omega⟩
      rw [hk, take_succ_cons]
      by_cases hn : (candidates ++ [e]).length = n
      · obtain rfl : k = 0 := by omega
        rw [if_pos hn, take_zero]
      · rw [if_neg hn, ih _ (by omega), append_assoc, singleton_append]
        congr 3
        omega
    · rw [if_neg he, filter_cons_of_neg (by simpa using he)]
      exact ih candidates h

end LRUCachePolicy

/-- ARC: `t1` holds the blocks used once, `t2` those used again, `b1` and `b2` the keys evicted
from them. -/
structure ARCCachePolicy (κ : Type) where
  cacheCapacity : Nat
  targetT1Size : ℚ
  t1 : List (κ × BlockStatus)
  t2 : List (κ × BlockStatus)
  b1 : List κ
  b2 : List κ
  deriving DecidableEq

namespace ARCCachePolicy

def get (p : ARCCachePolicy κ) (key : κ) : Option BlockStatus :=
  (get? p.t1 key).or (get? p.t2 key)

def insert (p : ARCCachePolicy κ) (key : κ) (block : BlockStatus) : ARCCachePolicy κ :=
  { p with
    t1 := set p.t1 key block
    b1 := p.b1.filter (fun k => k ≠ key)
    b2 := p.b2.filter (fun k => k ≠ key) }

def remove (p : ARCCachePolicy κ) (key : κ) : ARCCachePolicy κ :=
  if key ∈ p.t1.map Prod.fst then { p with t1 := erase p.t1 key }
  else { p with t2 := erase p.t2 key }

def assign (p : ARCCachePolicy κ) (key : κ) (block : BlockStatus) : ARCCachePolicy κ :=
  if key ∈ p.t1.map Prod.fst then { p with t1 := set p.t1 key block }
  else { p with t2 := set p.t2 key block }

def freshen (ghost : List κ) (key : κ) : List κ := ghost.filter (fun k => k ≠ key) ++ [key]

variable {key : κ} {guarded selected : List κ} {table : List (κ × BlockStatus)}
  {e : κ × BlockStatus} {p : ARCCachePolicy κ} {cs : List ((κ × BlockStatus) × Bool)}

theorem mem_freshen {ghost : List κ} (h : key ∈ ghost) (c : κ) :
    c ∈ freshen ghost key ↔ c ∈ ghost := by
  by_cases hc : c = key
  · simp [freshen, hc, h]
  · simp [freshen, hc]

theorem length_freshen_le {ghost : List κ} (h : key ∈ ghost) :
    (freshen ghost key).length ≤ ghost.length := by
  have hlt : (ghost.filter (fun k => k ≠ key)).length < ghost.length :=
    length_filter_lt_length_iff_exists.mpr ⟨key, h, by simp⟩
  rw [freshen, length_append]
  exact hlt

def touchKey (fl : ℚ → ℚ) (p : ARCCachePolicy κ) (key : κ) : ARCCachePolicy κ :=
  match get? p.t1 key with
  | some block =>
    if block.IsReady then
      { p with t1 := erase p.t1 key, t2 := set p.t2 key block }
    else { p with t1 := set (erase p.t1 key) key block }
  | none =>
    if key ∈ p.t2.map Prod.fst then { p with t2 := moveToEnd p.t2 key }
    else if key ∈ p.b1 then
      { p with
        targetT1Size :=
          min (fl (p.targetT1Size + max 1 (fl (p.b2.length / p.b1.length)))) p.cacheCapacity
        b1 := freshen p.b1 key }
    else if key ∈ p.b2 then
      { p with
        targetT1Size := max (fl (p.targetT1Size - max 1 (fl (p.b1.length / p.b2.length)))) 0
        b2 := freshen p.b2 key }
    else p

def touch (fl : ℚ → ℚ) (p : ARCCachePolicy κ) (keys : List κ) : ARCCachePolicy κ :=
  keys.foldr (fun key p => p.touchKey fl key) p

section
variable (p : ARCCachePolicy κ)

/-- The victim of one round of `evict`: from `t1` unless it would be below its target, else from
`t2`. The flag says which. -/
def candidate (guarded selected : List κ) (virtualT1Size : Int) :
    Option ((κ × BlockStatus) × Bool) :=
  let first := if pyInt p.targetT1Size ≤ virtualT1Size then
      p.t1.find? (fun e => Evictable guarded e ∧ e.1 ∉ selected) else none
  match first with
  | some e => some (e, true)
  | none => (p.t2.find? (fun e => Evictable guarded e ∧ e.1 ∉ selected)).map (fun e => (e, false))

/-- The rounds of `evict` that are left, after `selected`. -/
def select (p : ARCCachePolicy κ) (guarded : List κ) :
    Nat → List κ → Int → Option (List ((κ × BlockStatus) × Bool))
  | 0, _, _ => some []
  | n + 1, selected, virtualT1Size => do
    let c ← p.candidate guarded selected virtualT1Size
    let rest ← p.select guarded n (c.1.1 :: selected)
      (if c.2 then virtualT1Size - 1 else virtualT1Size)
    return c :: rest

def remember (ghost : List κ) (key : κ) : List κ := if key ∈ ghost then ghost else ghost ++ [key]

def applyEviction (c : (κ × BlockStatus) × Bool) : ARCCachePolicy κ :=
  if c.2 then { p with t1 := erase p.t1 c.1.1, b1 := remember p.b1 c.1.1 }
  else { p with t2 := erase p.t2 c.1.1, b2 := remember p.b2 c.1.1 }

def trimGhosts : ARCCachePolicy κ :=
  { p with
    b1 := p.b1.drop (p.b1.length - p.cacheCapacity)
    b2 := p.b2.drop (p.b2.length - p.cacheCapacity) }

def evict (n : Nat) (guarded : List κ) : Option (List (κ × BlockStatus) × ARCCachePolicy κ) :=
  if n = 0 then some ([], p)
  else do
    let candidates ← p.select guarded n [] p.t1.length
    return (candidates.map Prod.fst, (candidates.foldl applyEviction p).trimGhosts)

def candidates (guarded selected : List κ) (table : List (κ × BlockStatus)) :
    List (κ × BlockStatus) :=
  table.filter (fun e => Evictable guarded e ∧ e.1 ∉ selected)

theorem mem_candidates : e ∈ candidates guarded selected table ↔
      e ∈ table ∧ Evictable guarded e ∧ e.1 ∉ selected := by
  simp [candidates]

theorem candidates_cons (hnodup : (table.map Prod.fst).Nodup) {rest : List (κ × BlockStatus)}
    (h : candidates guarded selected table = e :: rest) :
    candidates guarded (e.1 :: selected) table = rest := by
  have hfilter : candidates guarded (e.1 :: selected) table =
      (candidates guarded selected table).filter (fun x => x.1 ≠ e.1) := by
    unfold candidates
    rw [filter_filter]
    grind
  have hkeys : ((e :: rest).map Prod.fst).Nodup := by
    rw [← h]
    exact hnodup.sublist ((filter_sublist).map Prod.fst)
  rw [hfilter, h, filter_cons_of_neg (by simp)]
  refine filter_eq_self.mpr fun x hx => ?_
  rw [map_cons, nodup_cons] at hkeys
  simp only [decide_eq_true_eq]
  exact fun heq => hkeys.1 (heq ▸ mem_map_of_mem hx)

theorem candidates_cons_of_notMem (h : key ∉ table.map Prod.fst) :
    candidates guarded (key :: selected) table = candidates guarded selected table := by
  refine filter_congr fun x hx => ?_
  have hne : x.1 ≠ key := fun heq => h (heq ▸ mem_map_of_mem hx)
  simp [hne]

theorem candidate_cases (guarded selected : List κ) (v : Int) :
    (∃ e rest, pyInt p.targetT1Size ≤ v ∧ candidates guarded selected p.t1 = e :: rest ∧
        p.candidate guarded selected v = some (e, true)) ∨
      ((v < pyInt p.targetT1Size ∨ candidates guarded selected p.t1 = []) ∧
        ((∃ e rest, candidates guarded selected p.t2 = e :: rest ∧
            p.candidate guarded selected v = some (e, false)) ∨
          (candidates guarded selected p.t2 = [] ∧ p.candidate guarded selected v = none))) := by
  have hfind : ∀ table : List (κ × BlockStatus),
      table.find? (fun e => Evictable guarded e ∧ e.1 ∉ selected) =
        (candidates guarded selected table).head? := fun table => head?_filter.symm
  unfold candidate
  rw [hfind, hfind]
  by_cases hv : pyInt p.targetT1Size ≤ v
  · cases h1 : candidates guarded selected p.t1 with
    | cons e rest => exact .inl ⟨e, rest, hv, rfl, by simp [hv]⟩
    | nil =>
      refine .inr ⟨.inr rfl, ?_⟩
      cases h2 : candidates guarded selected p.t2 with
      | cons e rest => exact .inl ⟨e, rest, rfl, by simp⟩
      | nil => exact .inr ⟨rfl, by simp⟩
  · refine .inr ⟨.inl (by omega), ?_⟩
    cases h2 : candidates guarded selected p.t2 with
    | cons e rest => exact .inl ⟨e, rest, rfl, by simp [hv]⟩
    | nil => exact .inr ⟨rfl, by simp [hv]⟩

/-- How many rounds find a victim: `t1` serves until it is below its target or has no candidate
left, `t2` as long as it has candidates. -/
def rounds (guarded selected : List κ) (v : Int) : Nat :=
  min (candidates guarded selected p.t1).length (v + 1 - pyInt p.targetT1Size).toNat +
    (candidates guarded selected p.t2).length

def entries : List (κ × BlockStatus) := p.t1 ++ p.t2

def Keyed : Prop := (p.entries.map Prod.fst).Nodup

end

omit [DecidableEq κ] in
theorem Keyed.parts (h : p.Keyed) :
    (p.t1.map Prod.fst).Nodup ∧ (p.t2.map Prod.fst).Nodup ∧
      ∀ key ∈ p.t1.map Prod.fst, key ∉ p.t2.map Prod.fst := by
  unfold Keyed entries at h
  rw [map_append, nodup_append] at h
  exact ⟨h.1, h.2.1, fun key h1 h2 => h.2.2 key h1 key h2 rfl⟩

theorem touchKey_perm (fl : ℚ → ℚ) (hk : p.Keyed) (key : κ) :
    (p.touchKey fl key).entries.Perm p.entries := by
  obtain ⟨h1, h2, h12⟩ := hk.parts
  unfold touchKey
  cases hget : get? p.t1 key with
  | some block =>
    have hnot := h12 key (mem_keys_of_get? hget)
    have herase : key ∉ (erase p.t1 key).map Prod.fst := by
      rw [keys_erase]
      simp
    have hperm : p.entries.Perm ((key, block) :: erase p.t1 key ++ p.t2) :=
      (perm_cons_erase h1 hget).append_right _
    dsimp only
    split_ifs
    · refine Perm.trans ?_ hperm.symm
      simp only [entries, set_of_notMem hnot]
      rw [← append_assoc]
      exact perm_append_singleton _ _
    · refine Perm.trans ?_ hperm.symm
      simp only [set_of_notMem herase]
      exact (perm_append_singleton _ _).append_right _
  | none =>
    split_ifs
    · exact (moveToEnd_perm p.t2 key).append_left _
    all_goals exact Perm.refl _

theorem candidate_some (hk : p.Keyed) {v : Int} {c : (κ × BlockStatus) × Bool}
    (h : p.candidate guarded selected v = some c) :
    c.1 ∈ (if c.2 then p.t1 else p.t2) ∧ Evictable guarded c.1 ∧ c.1.1 ∉ selected ∧
      p.rounds guarded selected v =
        p.rounds guarded (c.1.1 :: selected) (if c.2 then v - 1 else v) + 1 := by
  obtain ⟨h1, h2, h12⟩ := hk.parts
  rcases p.candidate_cases guarded selected v with
    ⟨e, rest, hv, hrest, hc⟩ | ⟨hclosed, ⟨e, rest, hrest, hc⟩ | ⟨hnil, hc⟩⟩
  · obtain rfl : (e, true) = c := Option.some.inj (hc.symm.trans h)
    obtain ⟨ht, hev, hsel⟩ := mem_candidates.mp (hrest ▸ mem_cons_self)
    refine ⟨ht, hev, hsel, ?_⟩
    simp only [rounds, candidates_cons h1 hrest,
      candidates_cons_of_notMem (h12 e.1 (mem_map_of_mem ht)), hrest, length_cons, if_true]
    omega
  · obtain rfl : (e, false) = c := Option.some.inj (hc.symm.trans h)
    obtain ⟨ht, hev, hsel⟩ := mem_candidates.mp (hrest ▸ mem_cons_self)
    refine ⟨ht, hev, hsel, ?_⟩
    have hnot : e.1 ∉ p.t1.map Prod.fst := fun hin => h12 e.1 hin (mem_map_of_mem ht)
    simp only [rounds, candidates_cons h2 hrest, candidates_cons_of_notMem hnot, hrest,
      length_cons, Bool.false_eq_true, if_false]
    omega
  · rw [hc] at h
    exact absurd h (by simp)

theorem candidate_eq_none_iff (p : ARCCachePolicy κ) (guarded selected : List κ) (v : Int) :
    p.candidate guarded selected v = none ↔ p.rounds guarded selected v = 0 := by
  unfold rounds
  rcases p.candidate_cases guarded selected v with
    ⟨e, rest, hv, hrest, hc⟩ | ⟨hclosed, ⟨e, rest, hrest, hc⟩ | ⟨hnil, hc⟩⟩
  · rw [hc, hrest]
    simp only [reduceCtorEq, length_cons, false_iff]
    omega
  · rw [hc, hrest]
    simp
  rw [hc, hnil]
  simp only [length_nil, true_iff]
  rcases hclosed with hv | h1
  · omega
  · simp [h1]

theorem select_eq_none_iff (hk : p.Keyed) (guarded : List κ) (n : Nat) (selected : List κ)
    (v : Int) : p.select guarded n selected v = none ↔ p.rounds guarded selected v < n := by
  induction n generalizing selected v with
  | zero => simp [select]
  | succ n ih =>
    cases hc : p.candidate guarded selected v with
    | none =>
      have hzero := (p.candidate_eq_none_iff guarded selected v).mp hc
      simp [select, hc, hzero]
    | some c =>
      have hrounds := (candidate_some hk hc).2.2.2
      have hrest := ih (c.1.1 :: selected) (if c.2 then v - 1 else v)
      rw [hrounds, Nat.add_lt_add_iff_right, ← hrest, select, hc, Option.bind_eq_bind,
        Option.bind_eq_none_iff, Option.eq_none_iff_forall_ne_some]
      simp

theorem select_some (hk : p.Keyed) {n : Nat} {v : Int}
    (h : p.select guarded n selected v = some cs) :
    cs.length = n ∧ (cs.map (fun c => c.1.1)).Nodup ∧
      ∀ c ∈ cs, c.1 ∈ (if c.2 then p.t1 else p.t2) ∧ Evictable guarded c.1 ∧ c.1.1 ∉ selected := by
  induction n generalizing selected v cs with
  | zero =>
    obtain rfl : [] = cs := by simpa [select] using h
    simp
  | succ n ih =>
    simp only [select, Option.bind_eq_bind, Option.bind_eq_some_iff] at h
    obtain ⟨c, hc, rest, hrest, hcs⟩ := h
    obtain rfl : c :: rest = cs := by simpa using hcs
    obtain ⟨ht, hev, hsel, -⟩ := candidate_some hk hc
    obtain ⟨hlen, hnodup, hall⟩ := ih hrest
    refine ⟨by simp [hlen], ?_, ?_⟩
    · rw [map_cons, nodup_cons]
      refine ⟨fun hin => ?_, hnodup⟩
      obtain ⟨d, hd, heq⟩ := mem_map.mp hin
      exact (hall d hd).2.2 (by simp [heq])
    intro d hd
    rcases mem_cons.mp hd with rfl | hd
    · exact ⟨ht, hev, hsel⟩
    · obtain ⟨hdt, hdev, hdsel⟩ := hall d hd
      exact ⟨hdt, hdev, fun hin => hdsel (mem_cons_of_mem _ hin)⟩

theorem entries_applyEvictions (h1 : ∀ c ∈ cs, c.2 = true → c.1.1 ∉ p.t2.map Prod.fst)
    (h2 : ∀ c ∈ cs, c.2 = false → c.1.1 ∉ p.t1.map Prod.fst) :
    (cs.foldl applyEviction p).entries =
      p.entries.filter (fun e => e.1 ∉ cs.map (fun c => c.1.1)) := by
  induction cs generalizing p with
  | nil => simp [entries]
  | cons c cs ih =>
    have hstep : (p.applyEviction c).entries = erase p.entries c.1.1 := by
      unfold applyEviction entries
      rw [OrderedDict.erase_append]
      cases hc : c.2 with
      | true => simp [erase_of_notMem (h1 c mem_cons_self hc)]
      | false => simp [erase_of_notMem (h2 c mem_cons_self hc)]
    have hsub : ∀ key, (key ∈ (p.applyEviction c).t1.map Prod.fst → key ∈ p.t1.map Prod.fst) ∧
        (key ∈ (p.applyEviction c).t2.map Prod.fst → key ∈ p.t2.map Prod.fst) := by
      intro key
      unfold applyEviction
      split
      · exact ⟨fun h => ((filter_sublist).map Prod.fst).subset h, id⟩
      · exact ⟨id, fun h => ((filter_sublist).map Prod.fst).subset h⟩
    rw [foldl_cons, ih (fun d hd hf hin => h1 d (mem_cons_of_mem _ hd) hf
        ((hsub d.1.1).2 hin)) (fun d hd hf hin => h2 d (mem_cons_of_mem _ hd) hf
        ((hsub d.1.1).1 hin)), hstep, erase, filter_filter]
    refine filter_congr fun e _ => ?_
    simp only [map_cons, mem_cons, not_or, Bool.decide_and]
    exact Bool.and_comm _ _

theorem applyEvictions_frame (p : ARCCachePolicy κ) (cs : List ((κ × BlockStatus) × Bool)) :
    (cs.foldl applyEviction p).cacheCapacity = p.cacheCapacity ∧
      (cs.foldl applyEviction p).targetT1Size = p.targetT1Size ∧
      (∀ key ∈ (cs.foldl applyEviction p).b1, key ∈ p.b1 ∨ key ∈ cs.map (fun c => c.1.1)) ∧
      ∀ key ∈ (cs.foldl applyEviction p).b2, key ∈ p.b2 ∨ key ∈ cs.map (fun c => c.1.1) := by
  induction cs generalizing p with
  | nil => simp
  | cons c cs ih =>
    have hremember : ∀ (ghost : List κ) (key : κ), key ∈ remember ghost c.1.1 →
        key ∈ ghost ∨ key = c.1.1 := by
      intro ghost key hkey
      unfold remember at hkey
      split_ifs at hkey
      · exact .inl hkey
      · simpa using hkey
    have hstep : (p.applyEviction c).cacheCapacity = p.cacheCapacity ∧
        (p.applyEviction c).targetT1Size = p.targetT1Size ∧
        (∀ key ∈ (p.applyEviction c).b1, key ∈ p.b1 ∨ key = c.1.1) ∧
        ∀ key ∈ (p.applyEviction c).b2, key ∈ p.b2 ∨ key = c.1.1 := by
      unfold applyEviction
      split_ifs
      · exact ⟨rfl, rfl, hremember p.b1, fun key hkey => .inl hkey⟩
      · exact ⟨rfl, rfl, fun key hkey => .inl hkey, hremember p.b2⟩
    obtain ⟨hcap, htarget, hb1, hb2⟩ := ih (p.applyEviction c)
    rw [foldl_cons, hcap, htarget]
    refine ⟨hstep.1, hstep.2.1, fun key hkey => ?_, fun key hkey => ?_⟩
    · rw [map_cons, mem_cons]
      rcases hb1 key hkey with hold | hnew
      · exact (hstep.2.2.1 key hold).imp_right .inl
      · exact .inr (.inr hnew)
    rw [map_cons, mem_cons]
    rcases hb2 key hkey with hold | hnew
    · exact (hstep.2.2.2 key hold).imp_right .inl
    · exact .inr (.inr hnew)

/-- What ARC remembers is bounded and not resident, and the target is a size. -/
structure Bounded {capacity : Nat} (fl : Rounding capacity) (p : ARCCachePolicy κ) : Prop where
  cacheCapacity : p.cacheCapacity = capacity
  ghosts : ∀ key ∈ p.entries.map Prod.fst, key ∉ p.b1 ∧ key ∉ p.b2
  b1 : p.b1.length ≤ capacity
  b2 : p.b2.length ≤ capacity
  nonneg : 0 ≤ p.targetT1Size
  le : p.targetT1Size ≤ capacity
  float : fl.round p.targetT1Size = p.targetT1Size

namespace Bounded
variable {capacity : Nat} {fl : Rounding capacity} {p p' : ARCCachePolicy κ}

section
variable (h : p.Bounded fl)
include h

omit [DecidableEq κ] in
theorem of_subset
    (heq : p'.cacheCapacity = p.cacheCapacity ∧ p'.targetT1Size = p.targetT1Size ∧
      p'.b1 = p.b1 ∧ p'.b2 = p.b2)
    (hsub : p'.entries.map Prod.fst ⊆ p.entries.map Prod.fst) : p'.Bounded fl := by
  obtain ⟨hcap, htarget, hb1, hb2⟩ := heq
  refine ⟨hcap.trans h.cacheCapacity, ?_, ?_, ?_, ?_, ?_, ?_⟩
  · rw [hb1, hb2]
    exact fun key hkey => h.ghosts key (hsub hkey)
  · rw [hb1]
    exact h.b1
  · rw [hb2]
    exact h.b2
  all_goals rw [htarget]
  exacts [h.nonneg, h.le, h.float]

theorem insert (key : κ) (block : BlockStatus) :
    (p.insert key block).Bounded fl := by
  refine ⟨h.cacheCapacity, ?_, (length_filter_le _ _).trans h.b1,
    (length_filter_le _ _).trans h.b2, h.nonneg, h.le, h.float⟩
  intro c hc
  simp only [ARCCachePolicy.insert, entries, map_append, mem_append, keys_set] at hc
  have hcases : c = key ∨ c ∈ p.entries.map Prod.fst := by
    unfold entries
    rw [map_append, mem_append]
    split_ifs at hc with hin
    · exact .inr hc
    · rw [mem_append, mem_singleton] at hc
      tauto
  rcases hcases with rfl | hold
  · simp [ARCCachePolicy.insert]
  · obtain ⟨h1, h2⟩ := h.ghosts c hold
    simp [ARCCachePolicy.insert, h1, h2]

omit [DecidableEq κ] in
theorem target {delta : ℚ} (hdelta : 1 ≤ delta) :
    (0 ≤ min (fl.round (p.targetT1Size + delta)) capacity ∧
      min (fl.round (p.targetT1Size + delta)) capacity ≤ capacity ∧
      fl.round (min (fl.round (p.targetT1Size + delta)) capacity) =
        min (fl.round (p.targetT1Size + delta)) capacity) ∧
    (0 ≤ max (fl.round (p.targetT1Size - delta)) 0 ∧
      max (fl.round (p.targetT1Size - delta)) 0 ≤ capacity ∧
      fl.round (max (fl.round (p.targetT1Size - delta)) 0) =
        max (fl.round (p.targetT1Size - delta)) 0) := by
  have hzero : fl.round 0 = 0 := by simpa using fl.natCast 0 (Nat.zero_le _)
  have hcap : fl.round capacity = capacity := fl.natCast capacity le_rfl
  have hup : 0 ≤ fl.round (p.targetT1Size + delta) := by
    rw [← hzero]
    exact fl.mono (by linarith [h.nonneg])
  have hdown : fl.round (p.targetT1Size - delta) ≤ p.targetT1Size := by
    conv_rhs => rw [← h.float]
    exact fl.mono (by linarith)
  refine ⟨⟨le_min hup (Nat.cast_nonneg _), min_le_right _ _, ?_⟩,
    ⟨le_max_right _ _, max_le (hdown.trans h.le) (Nat.cast_nonneg _), ?_⟩⟩
  · rw [fl.mono.map_min, fl.idem, hcap]
  · rw [fl.mono.map_max, fl.idem, hzero]

theorem touchKey (hk : p.Keyed) (key : κ) :
    (p.touchKey fl.round key).Bounded fl := by
  have hkeys : ((p.touchKey fl.round key).entries.map Prod.fst) ⊆ p.entries.map Prod.fst :=
    ((touchKey_perm fl.round hk key).map Prod.fst).subset
  unfold ARCCachePolicy.touchKey at hkeys ⊢
  cases hget : get? p.t1 key with
  | some block =>
    rw [hget] at hkeys
    dsimp only at hkeys ⊢
    split_ifs at hkeys ⊢ with hready
    all_goals exact h.of_subset ⟨rfl, rfl, rfl, rfl⟩ hkeys
  | none =>
    rw [hget] at hkeys
    split_ifs at hkeys ⊢ with h2 hb1 hb2
    · exact h.of_subset ⟨rfl, rfl, rfl, rfl⟩ hkeys
    · obtain ⟨hnonneg, hle, hfloat⟩ := (h.target (le_max_left 1 _)).1
      rw [h.cacheCapacity]
      refine ⟨rfl, fun c hc => ?_, (length_freshen_le hb1).trans h.b1, h.b2, hnonneg, hle, hfloat⟩
      rw [mem_freshen hb1]
      exact h.ghosts c hc
    · obtain ⟨hnonneg, hle, hfloat⟩ := (h.target (le_max_left 1 _)).2
      refine ⟨h.cacheCapacity, fun c hc => ?_, h.b1, (length_freshen_le hb2).trans h.b2,
        hnonneg, hle, hfloat⟩
      rw [mem_freshen hb2]
      exact h.ghosts c hc
    · exact h

theorem applyEvictions {cs : List ((κ × BlockStatus) × Bool)}
    (hout : ∀ c ∈ cs, c.1.1 ∉ (cs.foldl applyEviction p).entries.map Prod.fst)
    (hsub : (cs.foldl applyEviction p).entries.map Prod.fst ⊆ p.entries.map Prod.fst) :
    (cs.foldl applyEviction p).trimGhosts.Bounded fl := by
  obtain ⟨hcap, htarget, hb1, hb2⟩ := applyEvictions_frame p cs
  have hcap' : (cs.foldl applyEviction p).cacheCapacity = capacity := hcap.trans h.cacheCapacity
  refine ⟨hcap', fun key hkey => ⟨fun hin => ?_, fun hin => ?_⟩, ?_, ?_, ?_, ?_, ?_⟩
  · rcases hb1 key (mem_of_mem_drop hin) with hold | hnew
    · exact (h.ghosts key (hsub hkey)).1 hold
    · obtain ⟨c, hc, rfl⟩ := mem_map.mp hnew
      exact hout c hc hkey
  · rcases hb2 key (mem_of_mem_drop hin) with hold | hnew
    · exact (h.ghosts key (hsub hkey)).2 hold
    · obtain ⟨c, hc, rfl⟩ := mem_map.mp hnew
      exact hout c hc hkey
  · simp only [trimGhosts, length_drop]
    omega
  · simp only [trimGhosts, length_drop]
    omega
  all_goals simp only [trimGhosts, htarget]
  exacts [h.nonneg, h.le, h.float]

end

end Bounded

end ARCCachePolicy

inductive CachePolicy (κ : Type) where
  | lru (policy : LRUCachePolicy κ)
  | arc (policy : ARCCachePolicy κ)
  deriving DecidableEq

namespace CachePolicy

def get : CachePolicy κ → κ → Option BlockStatus
  | lru p, key => p.get key
  | arc p, key => p.get key

def insert : CachePolicy κ → κ → BlockStatus → CachePolicy κ
  | lru p, key, block => lru (p.insert key block)
  | arc p, key, block => arc (p.insert key block)

def remove : CachePolicy κ → κ → Except PyError (CachePolicy κ)
  | lru p, key => do
    let p ← p.remove key
    return lru p
  | arc p, key => .ok (arc (p.remove key))

def touch (fl : ℚ → ℚ) : CachePolicy κ → List κ → CachePolicy κ
  | lru p, keys => lru (p.touch keys)
  | arc p, keys => arc (p.touch fl keys)

def evict : CachePolicy κ → Nat → List κ → Option (List (κ × BlockStatus) × CachePolicy κ)
  | lru p, n, guarded => (p.evict n guarded).map (fun r => (r.1, lru r.2))
  | arc p, n, guarded => (p.evict n guarded).map (fun r => (r.1, arc r.2))

def assign : CachePolicy κ → κ → BlockStatus → CachePolicy κ
  | lru p, key, block => lru ⟨set p.blocks key block⟩
  | arc p, key, block => arc (p.assign key block)

def entries : CachePolicy κ → List (κ × BlockStatus)
  | lru p => p.blocks
  | arc p => p.entries

def keys (p : CachePolicy κ) : List κ := p.entries.map Prod.fst

def Bounded {capacity : Nat} (fl : Rounding capacity) : CachePolicy κ → Prop
  | lru _ => True
  | arc p => p.Bounded fl

theorem get_eq (p : CachePolicy κ) (key : κ) : p.get key = get? p.entries key := by
  cases p with
  | lru p => rfl
  | arc p => exact (get?_append p.t1 p.t2 key).symm

variable {p p' : CachePolicy κ} {key : κ} {n : Nat} {guarded : List κ}
  {evicted : List (κ × BlockStatus)} {block : BlockStatus}

theorem get_eq_none : p.get key = none ↔ key ∉ p.keys := by
  rw [get_eq]
  exact get?_eq_none

theorem mem_keys_of_get (h : p.get key = some block) : key ∈ p.keys :=
  mem_keys_of_get? (p.get_eq key ▸ h)

theorem mem_entries_iff (hk : p.keys.Nodup) :
    (key, block) ∈ p.entries ↔ p.get key = some block := by
  rw [get_eq]
  exact mem_iff_get? hk

theorem mem_keys_insert (p : CachePolicy κ) (key c : κ) (block : BlockStatus) :
    c ∈ (p.insert key block).keys ↔ c = key ∨ c ∈ p.keys := by
  have hset : ∀ d : List (κ × BlockStatus), c ∈ (set d key block).map Prod.fst ↔
      c = key ∨ c ∈ d.map Prod.fst := by
    intro d
    rw [keys_set]
    split_ifs with h
    · exact ⟨.inr, fun hc => hc.elim (fun heq => heq ▸ h) id⟩
    · rw [mem_append, mem_singleton, or_comm]
  cases p with
  | lru p => exact hset p.blocks
  | arc p =>
    simp [insert, keys, entries, ARCCachePolicy.entries, ARCCachePolicy.insert, hset, or_assoc]

theorem entries_insert (h : key ∉ p.keys) (block : BlockStatus) :
    (p.insert key block).entries.Perm ((key, block) :: p.entries) := by
  cases p with
  | lru p =>
    have hset : set p.blocks key block = p.blocks ++ [(key, block)] := set_of_notMem h block
    simp only [insert, LRUCachePolicy.insert, hset]
    exact perm_append_singleton _ _
  | arc p =>
    simp only [keys, entries, ARCCachePolicy.entries, map_append, mem_append, not_or] at h
    simp only [insert, entries, ARCCachePolicy.entries, ARCCachePolicy.insert]
    rw [set_of_notMem h.1, append_assoc]
    exact perm_middle

/-- The keys of ARC's `t2`, which `insert` does not look at. -/
def frequent : CachePolicy κ → List κ
  | lru _ => []
  | arc p => p.t2.map Prod.fst

omit [DecidableEq κ] in
theorem frequent_subset (p : CachePolicy κ) : p.frequent ⊆ p.keys := by
  cases p with
  | lru p => exact nil_subset _
  | arc p => exact ((sublist_append_right p.t1 p.t2).map Prod.fst).subset

theorem nodup_keys_insert (hk : p.keys.Nodup) (h : key ∉ p.frequent) (block : BlockStatus) :
    (p.insert key block).keys.Nodup ∧ (p.insert key block).frequent = p.frequent := by
  cases p with
  | lru p => exact ⟨nodup_keys_set hk key block, rfl⟩
  | arc p =>
    refine ⟨?_, rfl⟩
    obtain ⟨h1, h2, h12⟩ := ARCCachePolicy.Keyed.parts hk
    simp only [insert, keys, entries, ARCCachePolicy.entries, ARCCachePolicy.insert, map_append]
    refine nodup_append.mpr ⟨nodup_keys_set h1 key block, h2, ?_⟩
    intro a ha b hb hab
    subst hab
    rw [keys_set] at ha
    split_ifs at ha
    · exact h12 a ha hb
    · rcases mem_append.mp ha with ha | ha
      · exact h12 a ha hb
      · exact h (mem_singleton.mp ha ▸ hb)

theorem nodup_keys_insertAll (hk : p.keys.Nodup) (blocks : List (κ × BlockStatus))
    (h : ∀ e ∈ blocks, e.1 ∉ p.frequent) :
    (blocks.foldl (fun p e => p.insert e.1 e.2) p).keys.Nodup := by
  induction blocks generalizing p with
  | nil => exact hk
  | cons e blocks ih =>
    obtain ⟨hk', hfreq⟩ := nodup_keys_insert hk (h e mem_cons_self) e.2
    refine ih hk' fun d hd => ?_
    rw [hfreq]
    exact h d (mem_cons_of_mem _ hd)

theorem mem_keys_insertAll (p : CachePolicy κ) (blocks : List (κ × BlockStatus)) (c : κ) :
    c ∈ (blocks.foldl (fun p e => p.insert e.1 e.2) p).keys ↔
      c ∈ blocks.map Prod.fst ∨ c ∈ p.keys := by
  induction blocks generalizing p with
  | nil => simp
  | cons e blocks ih =>
    rw [foldl_cons, ih, mem_keys_insert, map_cons, mem_cons]
    tauto

theorem entries_insertAll {blocks : List (κ × BlockStatus)} (hnodup : (blocks.map Prod.fst).Nodup)
    (hnot : ∀ e ∈ blocks, e.1 ∉ p.keys) :
    (blocks.foldl (fun p e => p.insert e.1 e.2) p).entries.Perm (blocks ++ p.entries) := by
  induction blocks generalizing p with
  | nil => exact Perm.refl _
  | cons e blocks ih =>
    rw [map_cons, nodup_cons] at hnodup
    have hrest : ∀ d ∈ blocks, d.1 ∉ (p.insert e.1 e.2).keys := by
      intro d hd hin
      rcases (mem_keys_insert p e.1 d.1 e.2).mp hin with heq | hold
      · exact hnodup.1 (heq ▸ mem_map_of_mem hd)
      · exact hnot d (mem_cons_of_mem _ hd) hold
    have hhead := entries_insert (hnot e mem_cons_self) e.2
    exact (ih hnodup.2 hrest).trans ((hhead.append_left blocks).trans perm_middle)

theorem entries_assign (hk : p.keys.Nodup) (h : key ∈ p.keys) (block : BlockStatus) :
    (p.assign key block).entries = set p.entries key block := by
  cases p with
  | lru p => rfl
  | arc p =>
    obtain ⟨-, -, h12⟩ := ARCCachePolicy.Keyed.parts hk
    simp only [assign, ARCCachePolicy.assign]
    by_cases h1 : key ∈ p.t1.map Prod.fst
    · rw [if_pos h1]
      exact (set_append_left h1 (h12 key h1) block).symm
    have h2 : key ∈ p.t2.map Prod.fst := by
      simpa [keys, entries, ARCCachePolicy.entries, h1] using h
    rw [if_neg h1]
    exact (set_append_right h1 h2 block).symm

theorem keys_assign (hk : p.keys.Nodup) (h : key ∈ p.keys) (block : BlockStatus) :
    (p.assign key block).keys = p.keys := by
  unfold keys at h ⊢
  rw [entries_assign hk h, keys_set, if_pos h]

theorem remove_ok (hk : p.keys.Nodup) (h : key ∈ p.keys) :
    ∃ p', p.remove key = .ok p' ∧ p'.entries = erase p.entries key := by
  cases p with
  | lru p =>
    have hremove : p.remove key = .ok ⟨erase p.blocks key⟩ := if_pos h
    refine ⟨lru ⟨erase p.blocks key⟩, ?_, rfl⟩
    rw [remove, hremove]
    rfl
  | arc p =>
    refine ⟨arc (p.remove key), rfl, ?_⟩
    obtain ⟨-, -, h12⟩ := ARCCachePolicy.Keyed.parts hk
    simp only [entries, ARCCachePolicy.entries, OrderedDict.erase_append, ARCCachePolicy.remove]
    by_cases h1 : key ∈ p.t1.map Prod.fst
    · rw [if_pos h1, erase_of_notMem (h12 key h1)]
    · rw [if_neg h1, erase_of_notMem h1]

theorem entries_touch (fl : ℚ → ℚ) (hk : p.keys.Nodup) (keys : List κ) :
    (p.touch fl keys).entries.Perm p.entries := by
  cases p with
  | lru p =>
    induction keys with
    | nil => exact Perm.refl _
    | cons key keys ih => exact (LRUCachePolicy.touchKey_perm _ key).trans ih
  | arc p =>
    induction keys with
    | nil => exact Perm.refl _
    | cons key keys ih =>
      have hk' : (p.touch fl keys).Keyed := (ih.map Prod.fst).nodup_iff.mpr hk
      exact (ARCCachePolicy.touchKey_perm fl hk' key).trans ih

def evictable (p : CachePolicy κ) (guarded : List κ) : List (κ × BlockStatus) :=
  p.entries.filter (fun e => Evictable guarded e)

def reach : CachePolicy κ → List κ → Nat
  | lru p, guarded => ((lru p).evictable guarded).length
  | arc p, guarded => p.rounds guarded [] p.t1.length

structure Evicts (p p' : CachePolicy κ) (n : Nat) (guarded : List κ)
    (evicted : List (κ × BlockStatus)) : Prop where
  length : evicted.length = n
  nodup : (evicted.map Prod.fst).Nodup
  evictable : ∀ e ∈ evicted, e ∈ p.entries ∧ Evictable guarded e
  entries : p'.entries = p.entries.filter (fun e => e.1 ∉ evicted.map Prod.fst)

theorem evict_zero (p : CachePolicy κ) (guarded : List κ) : p.evict 0 guarded = some ([], p) := by
  cases p <;> simp [evict, LRUCachePolicy.evict, ARCCachePolicy.evict]

theorem lru_evict_eq (p : LRUCachePolicy κ) (hn : n ≠ 0) (guarded : List κ) :
    p.evict n guarded =
      if ((lru p).evictable guarded).length < n then none
      else some (((lru p).evictable guarded).take n,
        ⟨p.blocks.filter
          (fun e => e.1 ∉ (((lru p).evictable guarded).take n).map Prod.fst)⟩) := by
  unfold LRUCachePolicy.evict
  rw [if_neg hn, LRUCachePolicy.collect_eq guarded [] p.blocks (by simpa using hn.pos)]
  simp only [foldl_erase]
  have hlen : (((lru p).evictable guarded).take n).length < n ↔
      ((lru p).evictable guarded).length < n := by
    rw [length_take]
    omega
  exact if_congr hlen rfl rfl

/-- An eviction fails exactly when it is asked for more blocks than it can reach. -/
theorem evict_eq_none_iff (hk : p.keys.Nodup) (n : Nat) (guarded : List κ) :
    p.evict n guarded = none ↔ p.reach guarded < n := by
  by_cases hn : n = 0
  · subst hn
    simp [evict_zero]
  cases p with
  | lru p =>
    simp only [evict, lru_evict_eq p hn, reach]
    split_ifs with h <;> simp [h]
  | arc p =>
    simp only [evict, Option.map_eq_none_iff, ARCCachePolicy.evict, if_neg hn, reach]
    rw [← ARCCachePolicy.select_eq_none_iff hk, Option.bind_eq_bind, Option.bind_eq_none_iff,
      Option.eq_none_iff_forall_ne_some]
    simp

theorem evict_some (hk : p.keys.Nodup) (h : p.evict n guarded = some (evicted, p')) :
    p.Evicts p' n guarded evicted := by
  by_cases hn : n = 0
  · subst hn
    rw [evict_zero] at h
    cases h
    exact ⟨rfl, by simp, by simp, by simp⟩
  cases p with
  | lru p =>
    simp only [evict, lru_evict_eq p hn] at h
    split_ifs at h with hlen
    · simp at h
    cases h
    have hsub : (((lru p).evictable guarded).take n).Sublist (lru p).entries :=
      (take_sublist _ _).trans filter_sublist
    refine ⟨?_, hk.sublist (hsub.map Prod.fst), fun e he => ?_, rfl⟩
    · rw [length_take]
      omega
    · exact ⟨hsub.subset he, by simpa using (mem_filter.mp (mem_of_mem_take he)).2⟩
  | arc p =>
    simp only [evict, ARCCachePolicy.evict, if_neg hn, Option.map_eq_some_iff,
      Option.bind_eq_bind, Option.bind_eq_some_iff] at h
    obtain ⟨r, ⟨cs, hcs, hr⟩, hout⟩ := h
    cases hr
    obtain ⟨rfl, rfl⟩ := Prod.mk.inj hout
    obtain ⟨hlen, hnodup, hall⟩ := ARCCachePolicy.select_some hk hcs
    obtain ⟨-, -, h12⟩ := ARCCachePolicy.Keyed.parts hk
    refine ⟨by simpa using hlen, by simpa [Function.comp_def] using hnodup, ?_, ?_⟩
    · intro e he
      obtain ⟨c, hc, rfl⟩ := mem_map.mp he
      obtain ⟨ht, hev, -⟩ := hall c hc
      refine ⟨?_, hev⟩
      simp only [entries, ARCCachePolicy.entries, mem_append]
      split at ht
      · exact .inl ht
      · exact .inr ht
    have hentries : (cs.foldl ARCCachePolicy.applyEviction p).entries =
        p.entries.filter (fun e => e.1 ∉ cs.map (fun c => c.1.1)) :=
      ARCCachePolicy.entries_applyEvictions
      (fun c hc hf => h12 _ (mem_map_of_mem (by simpa [hf] using (hall c hc).1)))
      (fun c hc hf hin => h12 _ hin (mem_map_of_mem (by simpa [hf] using (hall c hc).1)))
    simp only [map_map]
    exact hentries

theorem Evicts.mem_keys (h : p.Evicts p' n guarded evicted) (c : κ) :
    c ∈ p'.keys ↔ c ∈ p.keys ∧ c ∉ evicted.map Prod.fst := by
  unfold keys
  rw [h.entries]
  constructor
  · intro hc
    obtain ⟨e, he, rfl⟩ := mem_map.mp hc
    obtain ⟨hin, hnot⟩ := mem_filter.mp he
    exact ⟨mem_map_of_mem hin, by simpa using hnot⟩
  · rintro ⟨hin, hnot⟩
    obtain ⟨e, he, rfl⟩ := mem_map.mp hin
    exact mem_map_of_mem (mem_filter.mpr ⟨he, by simpa using hnot⟩)

theorem Evicts.nodup_keys (hk : p.keys.Nodup) (h : p.Evicts p' n guarded evicted) :
    p'.keys.Nodup := by
  unfold keys
  rw [h.entries]
  exact hk.sublist (filter_sublist.map Prod.fst)

theorem Evicts.perm (hk : p.keys.Nodup) (h : p.Evicts p' n guarded evicted) :
    p.entries.Perm (evicted ++ p'.entries) := by
  have hnodup : p.entries.Nodup := hk.of_map
  have htaken :
      (p.entries.filter (fun e => !decide (e.1 ∉ evicted.map Prod.fst))).Perm evicted := by
    refine (perm_ext_iff_of_nodup (hnodup.filter _) h.nodup.of_map).mpr fun e => ?_
    rw [mem_filter]
    constructor
    · rintro ⟨he, hin⟩
      obtain ⟨d, hd, hkey⟩ := mem_map.mp (show e.1 ∈ evicted.map Prod.fst by simpa using hin)
      have hdp := (h.evictable d hd).1
      rw [inj_on_of_nodup_map hk he hdp hkey.symm]
      exact hd
    · intro he
      refine ⟨(h.evictable e he).1, ?_⟩
      simpa using mem_map_of_mem (f := Prod.fst) he
  rw [h.entries]
  refine (filter_append_perm (fun e => decide (e.1 ∉ evicted.map Prod.fst)) _).symm.trans ?_
  exact perm_append_comm.trans (htaken.append_right _)

theorem reach_le (guarded : List κ) : p.reach guarded ≤ (p.evictable guarded).length := by
  cases p with
  | lru p => exact le_refl _
  | arc p =>
    simp only [reach, ARCCachePolicy.rounds, evictable, entries, ARCCachePolicy.entries,
      ARCCachePolicy.candidates, not_mem_nil, not_false_eq_true, and_true, filter_append,
      length_append]
    omega

section Bounds
variable {capacity : Nat} {fl : Rounding capacity} {p p' : CachePolicy κ}

theorem Bounded.insert (h : p.Bounded fl) (key : κ) (block : BlockStatus) :
    (p.insert key block).Bounded fl := by
  cases p with
  | lru p => trivial
  | arc p => exact ARCCachePolicy.Bounded.insert h key block

theorem Bounded.insertAll (h : p.Bounded fl) (blocks : List (κ × BlockStatus)) :
    (blocks.foldl (fun p e => p.insert e.1 e.2) p).Bounded fl := by
  induction blocks generalizing p with
  | nil => exact h
  | cons e blocks ih => exact ih (h.insert e.1 e.2)

section
variable (h : p.Bounded fl) (hk : p.keys.Nodup)
include h hk

theorem Bounded.assign {key : κ} (hkey : key ∈ p.keys) (block : BlockStatus) :
    (p.assign key block).Bounded fl := by
  have hkeys := keys_assign hk hkey block
  cases p with
  | lru p => trivial
  | arc p =>
    refine ARCCachePolicy.Bounded.of_subset h ?_ ?_
    · unfold ARCCachePolicy.assign
      split_ifs <;> exact ⟨rfl, rfl, rfl, rfl⟩
    · exact (congrArg (· ⊆ (arc p).keys) hkeys).mpr (Subset.refl _)

theorem Bounded.remove {key : κ} (hkey : key ∈ p.keys) (hp' : p.remove key = .ok p') :
    p'.Bounded fl := by
  obtain ⟨q, hq, hentries⟩ := remove_ok hk hkey
  obtain rfl : q = p' := Except.ok.inj (hq.symm.trans hp')
  cases p with
  | lru p =>
    simp only [remove, seq_ok_iff] at hq
    obtain ⟨r, -, hr⟩ := hq
    cases hr
    trivial
  | arc p =>
    cases hq
    refine ARCCachePolicy.Bounded.of_subset h ?_ ?_
    · unfold ARCCachePolicy.remove
      split_ifs <;> exact ⟨rfl, rfl, rfl, rfl⟩
    · change (arc (p.remove key)).entries.map Prod.fst ⊆ _
      rw [hentries]
      exact (filter_sublist.map Prod.fst).subset

theorem Bounded.touch (keys : List κ) : (p.touch fl.round keys).Bounded fl := by
  cases p with
  | lru p => trivial
  | arc p =>
    induction keys with
    | nil => exact h
    | cons key keys ih =>
      have hperm : (p.touch fl.round keys).entries.Perm p.entries :=
        entries_touch fl.round (p := arc p) hk keys
      exact ARCCachePolicy.Bounded.touchKey ih ((hperm.map Prod.fst).nodup_iff.mpr hk) key

theorem Bounded.evict {n : Nat} {guarded : List κ} {evicted : List (κ × BlockStatus)}
    (he : p.evict n guarded = some (evicted, p')) : p'.Bounded fl := by
  have hspec := evict_some hk he
  cases p with
  | lru p =>
    simp only [evict, Option.map_eq_some_iff] at he
    obtain ⟨r, -, hr⟩ := he
    obtain ⟨-, rfl⟩ := Prod.mk.inj hr
    trivial
  | arc p =>
    by_cases hn : n = 0
    · subst hn
      obtain ⟨-, rfl⟩ := Prod.mk.inj (Option.some.inj he)
      exact h
    simp only [evict, ARCCachePolicy.evict, if_neg hn, Option.map_eq_some_iff,
      Option.bind_eq_bind, Option.bind_eq_some_iff] at he
    obtain ⟨r, ⟨cs, -, hr⟩, hout⟩ := he
    cases hr
    obtain ⟨rfl, rfl⟩ := Prod.mk.inj hout
    have hentries : (cs.foldl ARCCachePolicy.applyEviction p).entries =
        p.entries.filter (fun e => e.1 ∉ (cs.map Prod.fst).map Prod.fst) := hspec.entries
    refine ARCCachePolicy.Bounded.applyEvictions h (fun c hc hin => ?_) ?_
    · rw [hentries] at hin
      obtain ⟨e, he, hkey⟩ := mem_map.mp hin
      have hnot := (mem_filter.mp he).2
      simp only [decide_eq_true_eq] at hnot
      exact hnot (hkey ▸ mem_map_of_mem (mem_map_of_mem hc))
    · rw [hentries]
      exact (filter_sublist.map Prod.fst).subset

end

end Bounds

end CachePolicy

end TailBlend
