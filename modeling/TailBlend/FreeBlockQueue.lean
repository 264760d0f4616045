import TailBlend.Lib.Py

/-! The queue of free blocks as the code has it, a doubly linked list through the blocks themselves,
against the plain list that the block pool has here. -/
namespace TailBlend

inductive KVCacheBlock where
  | fakeHead
  | fakeTail
  | block (b : Nat)
  deriving DecidableEq

/-- The links of all blocks, the two sentinels among them. -/
structure FreeKVCacheBlockQueue where
  prev : KVCacheBlock → Option KVCacheBlock
  next : KVCacheBlock → Option KVCacheBlock
  numFreeBlocks : Int

namespace FreeKVCacheBlockQueue
open KVCacheBlock List
variable (q : FreeKVCacheBlockQueue)

/-- `a.next_free_block = b` and `b.prev_free_block = a`. -/
def link (a b : KVCacheBlock) : FreeKVCacheBlockQueue :=
  { q with
    next := fun x => if x = a then some b else q.next x
    prev := fun x => if x = b then some a else q.prev x }

def clear (b : KVCacheBlock) : FreeKVCacheBlockQueue :=
  { q with
    next := fun x => if x = b then none else q.next x
    prev := fun x => if x = b then none else q.prev x }

def count (n : Int) : FreeKVCacheBlockQueue :=
  { q with numFreeBlocks := q.numFreeBlocks + n }

/-- Links each block to the one before it, and returns the last. -/
def linkAll (last : KVCacheBlock) (blocks : List KVCacheBlock) :
    FreeKVCacheBlockQueue × KVCacheBlock :=
  blocks.foldl (fun (q, last) b => (q.link last b, b)) (q, last)

def init (blocks : List KVCacheBlock) : FreeKVCacheBlockQueue :=
  let q := ⟨fun _ => none, fun _ => none, blocks.length⟩
  match blocks with
  | [] => link q fakeHead fakeTail
  | b :: rest =>
    let (q, last) := linkAll q b rest
    (q.link fakeHead b).link last fakeTail

/-- What a call returns or raises, with the queue that it leaves. -/
abbrev Outcome := Except PyError (List KVCacheBlock) × FreeKVCacheBlockQueue

def noFreeBlocks : Outcome :=
  if q.numFreeBlocks = 0 then (.error (.valueError "No free blocks available"), q)
  else (.error (.assertionError
    s!"num_free_blocks ({q.numFreeBlocks}) is out of sync with the free list."), q)

def popleft : Outcome :=
  match q.next fakeHead with
  | none => q.noFreeBlocks
  | some first =>
    if first = fakeTail then q.noFreeBlocks
    else match q.next first with
      | none => (.error (.runtimeError
          "Invalid block found in popleft() which doesn't have a valid next_free_block"), q)
      | some second => (.ok [first], ((q.link fakeHead second).clear first).count (-1))

/-- The loop of `popleft_n`, with the block that it ends at. -/
def popLoop : Nat → Option KVCacheBlock → FreeKVCacheBlockQueue →
    Outcome × Option KVCacheBlock
  | 0, curr, q => ((.ok [], q), curr)
  | _ + 1, none, q => ((.error (.assertionError ""), q), none)
  | n + 1, some b, q =>
    let ((ret, q'), curr) := popLoop n (q.next b) (q.clear b)
    ((ret.map (b :: ·), q'), curr)

def popleftN (n : Nat) : Outcome :=
  if n = 0 then (.ok [], q)
  else if q.numFreeBlocks < n then (.error (.assertionError ""), q)
  else match popLoop n (q.next fakeHead) (q.count (-n)) with
    | ((.ok ret, q), some curr) => (.ok ret, q.link fakeHead curr)
    | (outcome, _) => outcome

def remove (b : KVCacheBlock) : Outcome :=
  match q.prev b, q.next b with
  | some p, some n => (.ok [], ((q.link p n).clear b).count (-1))
  | _, _ => (.error (.runtimeError "remove() called on an invalid block"), q)

def append (b : KVCacheBlock) : Outcome :=
  match q.prev fakeTail with
  | none => (.error (.runtimeError "prev_free_block of fake_free_list_tail should always exist"), q)
  | some last => (.ok [], ((q.link last b).link b fakeTail).count 1)

def appendN (blocks : List KVCacheBlock) : Outcome :=
  if blocks = [] then (.ok [], q)
  else match q.prev fakeTail with
    | none =>
      (.error (.assertionError "prev_free_block of fake_free_list_tail should always exist"), q)
    | some last =>
      let (q, last) := q.linkAll last blocks
      (.ok [], (q.link last fakeTail).count blocks.length)

/-- The loop of `get_all_free_blocks`. -/
def collect : Nat → KVCacheBlock → List KVCacheBlock
  | 0, _ => []
  | fuel + 1, b => match q.next b with
    | none => []
    | some c => b :: collect fuel c

def getAllFreeBlocks (fuel : Nat) : Except PyError (List KVCacheBlock) :=
  match q.next fakeHead with
  | none => .error (.runtimeError "next_free_block of fake_free_list_head should always exist")
  | some first => .ok (q.collect fuel first)

inductive Op where
  | popleft
  | popleftN (n : Nat)
  | remove (b : KVCacheBlock)
  | append (b : KVCacheBlock)
  | appendN (blocks : List KVCacheBlock)

def step : Op → Outcome
  | .popleft => q.popleft
  | .popleftN n => q.popleftN n
  | .remove b => q.remove b
  | .append b => q.append b
  | .appendN blocks => q.appendN blocks

/-- The same operations on a plain list. -/
def listStep (l : List KVCacheBlock) :
    Op → Except PyError (List KVCacheBlock) × List KVCacheBlock
  | .popleft => match l with
    | [] => (.error (.valueError "No free blocks available"), [])
    | b :: l => (.ok [b], l)
  | .popleftN n => if n ≤ l.length then (.ok (l.take n), l.drop n)
    else (.error (.assertionError ""), l)
  | .remove b => if b ∈ l then (.ok [], l.erase b)
    else (.error (.runtimeError "remove() called on an invalid block"), l)
  | .append b => (.ok [], l ++ [b])
  | .appendN blocks => (.ok [], l ++ blocks)

/-- What every call returns, and the state after the last. -/
def run {σ ρ : Type} (step : σ → Op → ρ × σ) : σ → List Op → List ρ × σ
  | s, [] => ([], s)
  | s, op :: ops =>
    let (ret, s) := step s op
    let (rets, s) := run step s ops
    (ret :: rets, s)

def Op.new : Op → List KVCacheBlock
  | .append b => [b]
  | .appendN blocks => blocks
  | _ => []

/-- Only blocks that are not queued are appended. -/
def Permitted : List KVCacheBlock → List Op → Prop
  | _, [] => True
  | l, op :: ops => (fakeHead :: l ++ fakeTail :: op.new).Nodup ∧ Permitted (listStep l op).2 ops

variable {q} {s t c l : List KVCacheBlock} {a b p n m x y : KVCacheBlock}

/-- `y` comes right after `x`. -/
def Adj : List KVCacheBlock → KVCacheBlock → KVCacheBlock → Prop
  | a :: b :: l, x, y => x = a ∧ y = b ∨ Adj (b :: l) x y
  | _, _, _ => False

/-- The links are those of a chain of blocks. -/
structure Links (q : FreeKVCacheBlockQueue) (c : List KVCacheBlock) : Prop where
  nodup : c.Nodup
  next : ∀ x y, q.next x = some y ↔ Adj c x y
  prev : ∀ x y, q.prev y = some x ↔ Adj c x y

/-- The queue holds `l`. -/
structure Holds (q : FreeKVCacheBlockQueue) (l : List KVCacheBlock) : Prop where
  links : Links q (fakeHead :: l ++ [fakeTail])
  num : q.numFreeBlocks = l.length

/-- What a call returns agrees, and the queue that it leaves holds the list that it leaves. -/
def Agrees {ρ : Type} (o : ρ × FreeKVCacheBlockQueue) (o' : ρ × List KVCacheBlock) : Prop :=
  o.1 = o'.1 ∧ Holds o.2 o'.2

@[grind =] theorem link_next : (q.link a b).next x = if x = a then some b else q.next x := rfl

@[grind =] theorem link_prev : (q.link a b).prev x = if x = b then some a else q.prev x := rfl

@[grind =] theorem clear_next : (q.clear b).next x = if x = b then none else q.next x := rfl

@[grind =] theorem clear_prev : (q.clear b).prev x = if x = b then none else q.prev x := rfl

@[grind =] theorem adj_cons_cons : Adj (a :: b :: c) x y ↔ x = a ∧ y = b ∨ Adj (b :: c) x y :=
  Iff.rfl

@[grind =] theorem adj_singleton : Adj [a] x y ↔ False := Iff.rfl

@[grind =] theorem adj_append : Adj (s ++ a :: b :: t) x y ↔
    Adj (s ++ [a]) x y ∨ x = a ∧ y = b ∨ Adj (b :: t) x y := by
  induction s with
  | nil => simp [Adj]
  | cons u s ih => cases s <;> simp_all [Adj, or_assoc]

theorem exists_adj_left : (∃ x, Adj c x y) ↔ y ∈ c.tail := by
  induction c with
  | nil => simp [Adj]
  | cons a c ih => cases c <;> simp_all [Adj, exists_or]

theorem exists_adj_right : (∃ y, Adj c x y) ↔ x ∈ c.dropLast := by
  induction c with
  | nil => simp [Adj]
  | cons a c ih => cases c <;> simp_all [Adj, exists_or]

@[grind →] theorem adj_concat (h : Adj (s ++ [a]) x y) : x ∈ s ∧ y ∈ s ++ [a] :=
  ⟨by simpa using exists_adj_right.mp ⟨y, h⟩, mem_of_mem_tail (exists_adj_left.mp ⟨x, h⟩)⟩

@[grind →] theorem adj_cons (h : Adj (a :: t) x y) : x ∈ a :: t ∧ y ∈ t :=
  ⟨dropLast_subset _ (exists_adj_right.mp ⟨y, h⟩), exists_adj_left.mp ⟨x, h⟩⟩

namespace Links

theorem next_eq_none (h : Links q c) : q.next b = none ↔ b ∉ c.dropLast := by
  rw [← exists_adj_right, Option.eq_none_iff_forall_ne_some]
  simp [h.next]

theorem prev_eq_none (h : Links q c) : q.prev b = none ↔ b ∉ c.tail := by
  rw [← exists_adj_left, Option.eq_none_iff_forall_ne_some]
  simp [h.prev]

theorem counted (h : Links q c) (k : Int) : Links (q.count k) c := ⟨h.nodup, h.next, h.prev⟩

theorem around (h : Links q (s ++ p :: n :: t)) : q.next p = some n ∧ q.prev n = some p :=
  ⟨(h.next ..).mpr (by grind), (h.prev ..).mpr (by grind)⟩

theorem collected (h : Links q (s ++ b :: t)) {fuel : Nat} (hf : t.length < fuel) :
    q.collect fuel b = (b :: t).dropLast := by
  induction t generalizing s b fuel with
  | nil =>
    have hnone := h.next_eq_none (b := b)
    have hn := h.nodup
    cases fuel <;> grind [collect]
  | cons v t ih =>
    cases fuel with
    | zero => simp at hf
    | succ fuel =>
      have hrest : q.collect fuel v = (v :: t).dropLast :=
        ih (s := s ++ [b]) (by simpa using h) (by simpa using hf)
      simp only [collect, h.around.1, hrest, dropLast_cons_cons]

theorem link_self (h : Links q (s ++ p :: n :: t)) : q.link p n = q := by
  obtain ⟨hnext, hprev⟩ := h.around
  cases q
  simp only [link, mk.injEq, and_true]
  constructor <;> funext x <;> grind

theorem push (h : Links q (n :: t)) (hp : p ∉ n :: t) : Links (q.link p n) (p :: n :: t) := by
  have hn := h.nodup
  refine ⟨nodup_cons.mpr ⟨hp, hn⟩, fun x y => ?_, fun x y => ?_⟩
  · have := h.next x y
    grind
  · have := h.prev x y
    grind

/-- A new block between two that are still to be linked. -/
theorem insert (h : Links (q.link p n) (s ++ p :: n :: t)) (hb : b ∉ s ++ p :: n :: t) :
    Links ((q.link p b).link b n) (s ++ [p] ++ b :: n :: t) := by
  have hn := h.nodup
  rw [append_assoc, singleton_append]
  refine ⟨by grind, fun x y => ?_, fun x y => ?_⟩
  · have := h.next x y
    grind
  · have := h.prev x y
    grind

theorem drop (h : Links (q.link p n) (s ++ p :: n :: m :: t)) :
    Links ((q.clear n).link p m) (s ++ p :: m :: t) := by
  have hn := h.nodup
  refine ⟨by grind, fun x y => ?_, fun x y => ?_⟩
  · have := h.next x y
    grind
  · have := h.prev x y
    grind

theorem unlink (h : Links q (s ++ p :: b :: n :: t)) :
    Links ((q.link p n).clear b) (s ++ p :: n :: t) := by
  have hcomm : (q.link p n).clear b = (q.clear b).link p n := by
    have hn := h.nodup
    simp only [link, clear, mk.injEq, and_true]
    constructor <;> funext x <;> grind
  rw [hcomm]
  exact (h.link_self.symm ▸ h).drop

theorem linked (h : Links (q.link p n) (s ++ p :: n :: t)) (blocks : List KVCacheBlock)
    (hb : (s ++ p :: n :: t ++ blocks).Nodup) :
    ∃ q' last w, q.linkAll p blocks = (q', last) ∧ w ++ [last] = s ++ p :: blocks ∧
      Links (q'.link last n) (w ++ last :: n :: t) ∧ q'.numFreeBlocks = q.numFreeBlocks := by
  induction blocks generalizing q s p with
  | nil => exact ⟨q, p, s, rfl, rfl, h, rfl⟩
  | cons b blocks ih =>
    obtain ⟨q', last, w, heq, hws, hlinks⟩ := ih (h.insert (b := b) (by grind)) (by grind)
    exact ⟨q', last, w, heq, by simpa using hws, hlinks⟩

theorem popped (h : Links (q.link p n) (s ++ p :: n :: t)) {k : Nat} (hk : k ≤ t.length) :
    ∃ q' m w, popLoop k (some n) q = ((.ok ((n :: t).take k), q'), some m) ∧
      (n :: t).drop k = m :: w ∧ Links (q'.link p m) (s ++ p :: m :: w) ∧
      q'.numFreeBlocks = q.numFreeBlocks := by
  induction k generalizing q n t with
  | zero => exact ⟨q, n, t, rfl, rfl, h, rfl⟩
  | succ k ih =>
    cases t with
    | nil => simp at hk
    | cons v t =>
      have hv : q.next n = some v := by
        have := (around (s := s ++ [p]) (by simpa using h)).1
        grind [h.nodup]
      obtain ⟨q', m, w, hpop, hdrop, hlinks⟩ := ih h.drop (by simpa using hk)
      exact ⟨q', m, w, by simp [popLoop, hv, hpop, Except.map], hdrop, hlinks⟩

end Links

theorem init_holds {blocks : List KVCacheBlock} (hb : (fakeHead :: blocks ++ [fakeTail]).Nodup) :
    Holds (init blocks) blocks := by
  have hpair (p : KVCacheBlock) (num : Int) (hp : p ≠ fakeTail) :
      Links (link ⟨fun _ => none, fun _ => none, num⟩ p fakeTail) [p, fakeTail] :=
    ⟨by simpa using hp, by grind, by grind⟩
  cases blocks with
  | nil => exact ⟨hpair _ _ (by simp), rfl⟩
  | cons b rest =>
    obtain ⟨q, last, w, heq, hws, hlinks, hcount⟩ :=
      (hpair b (rest.length + 1) (by grind)).linked (s := []) rest (by grind)
    have hchain : w ++ last :: [fakeTail] = b :: (rest ++ [fakeTail]) := by
      rw [append_cons, hws]
      rfl
    -- the code links the first block to the head before the last one to the tail
    have hcomm : (q.link fakeHead b).link last fakeTail =
        (q.link last fakeTail).link fakeHead b := by
      simp only [link, mk.injEq, and_true]
      constructor <;> funext x <;> grind
    simp only [init, length_cons, Nat.cast_add, Nat.cast_one, heq, hcomm]
    exact ⟨(hchain ▸ hlinks).push (nodup_cons.mp hb).1, hcount⟩

section
variable (h : Holds q l)
include h

theorem links_first : ∃ n t, l ++ [fakeTail] = n :: t ∧ l.length = t.length ∧
    Links q ([fakeHead] ++ n :: t) ∧ q.next fakeHead = some n := by
  obtain ⟨n, t, hl⟩ := exists_cons_of_ne_nil (l := l ++ [fakeTail]) (by simp)
  have hlinks : Links q ([] ++ fakeHead :: n :: t) := hl ▸ h.links
  exact ⟨n, t, hl, by simpa using congrArg length hl, hlinks, hlinks.around.1⟩

theorem getAllFreeBlocks_eq {fuel : Nat} (hf : l.length < fuel) :
    q.getAllFreeBlocks fuel = .ok l := by
  obtain ⟨n, t, hl, hlen, hlinks, hnext⟩ := links_first h
  rw [getAllFreeBlocks, hnext]
  simp only [hlinks.collected (hlen ▸ hf), ← hl, dropLast_concat]

/-- The neighbours of a queued block are linked to each other. -/
theorem remove_holds (hl : l = s ++ b :: t) :
    ∃ s' p n, fakeHead :: s = s' ++ [p] ∧ q.prev b = some p ∧ q.next b = some n ∧
      Holds (((q.link p n).clear b).count (-1)) (s ++ t) := by
  obtain ⟨s', p, hp⟩ := eq_nil_or_concat' (fakeHead :: s) |>.resolve_left (by simp)
  obtain ⟨n, t', hn⟩ := exists_cons_of_ne_nil (l := t ++ [fakeTail]) (by simp)
  have hchain : fakeHead :: l ++ [fakeTail] = s' ++ p :: b :: n :: t' := by
    rw [hl, ← cons_append, hp, append_assoc, cons_append, hn, append_assoc, singleton_append]
  have hlinks := hchain ▸ h.links
  refine ⟨s', p, n, hp, hlinks.around.2, ?_, ?_, ?_⟩
  · exact (Links.around (s := s' ++ [p]) (by simpa using hlinks)).1
  · rw [← cons_append, hp, append_assoc, append_assoc, hn]
    exact hlinks.unlink.counted _
  · simp only [count, clear, link, h.num, hl, length_append, length_cons]
    omega

theorem appended_holds (blocks : List KVCacheBlock)
    (hb : (fakeHead :: l ++ fakeTail :: blocks).Nodup) :
    ∃ last, q.prev fakeTail = some last ∧ (let (q, last) := q.linkAll last blocks
      Holds ((q.link last fakeTail).count blocks.length) (l ++ blocks)) := by
  obtain ⟨s, last, hus⟩ := eq_nil_or_concat' (fakeHead :: l) |>.resolve_left (by simp)
  have hlinks := h.links
  rw [hus, append_assoc] at hlinks hb
  obtain ⟨q', last', w, heq, hws, hlinks', hcount⟩ :=
    (hlinks.link_self.symm ▸ hlinks).linked blocks (by simpa using hb)
  have hchain : fakeHead :: (l ++ blocks) ++ [fakeTail] = w ++ last' :: [fakeTail] := by
    rw [append_cons w, hws, ← cons_append, hus]
    simp
  refine ⟨last, hlinks.around.2, ?_⟩
  rw [heq]
  exact ⟨hchain ▸ hlinks'.counted _, by simp [count, link, hcount, h.num]⟩

theorem remove_error (hb : b ∉ l) :
    q.remove b = (.error (.runtimeError "remove() called on an invalid block"), q) := by
  have hprev := h.links.prev_eq_none (b := b)
  have hnext := h.links.next_eq_none (b := b)
  rw [remove]
  split
  · grind
  · rfl

theorem popleft_agrees : Agrees q.popleft (listStep l .popleft) := by
  cases l with
  | nil =>
    have hnext : q.next fakeHead = some fakeTail := (Links.around (s := []) h.links).1
    simp only [popleft, noFreeBlocks, hnext, h.num]
    exact ⟨rfl, h⟩
  | cons b l =>
    obtain ⟨s, p, n, hp, -, hnext, hholds⟩ := remove_holds h (s := []) rfl
    obtain ⟨rfl, rfl⟩ : s = [] ∧ fakeHead = p := by cases s <;> simp_all
    have htail : b ≠ fakeTail := by grind [h.links.nodup]
    simp only [popleft, (Links.around (s := []) h.links).1, if_neg htail, hnext, listStep]
    exact ⟨rfl, hholds⟩

theorem popleftN_agrees (k : Nat) : Agrees (q.popleftN k) (listStep l (.popleftN k)) := by
  have hnum := h.num
  by_cases hz : k = 0
  · subst hz
    exact ⟨rfl, h⟩
  by_cases hk : k ≤ l.length
  · obtain ⟨n, t, hl, hlen, hfirst, hnext⟩ := links_first h
    have hlinks : Links (q.count (-k)) ([] ++ fakeHead :: n :: t) := hfirst.counted _
    obtain ⟨q', m, w, hpop, hdrop, hlinks', hcount⟩ :=
      (hlinks.link_self.symm ▸ hlinks).popped (hlen ▸ hk)
    rw [← hl, drop_append_of_le_length hk] at hdrop
    rw [← hl, take_append_of_le_length hk] at hpop
    rw [popleftN, if_neg hz, if_neg (by omega), hnext, hpop]
    simp only [listStep, if_pos hk]
    refine ⟨rfl, by simpa [hdrop] using hlinks', ?_⟩
    simp only [link, hcount, count, length_drop]
    omega
  · rw [popleftN, if_neg hz, if_pos (by omega)]
    simp only [listStep, if_neg hk]
    exact ⟨rfl, h⟩

theorem step_agrees {op : Op} (hop : (fakeHead :: l ++ fakeTail :: op.new).Nodup) :
    Agrees (q.step op) (listStep l op) := by
  cases op with
  | popleft => exact popleft_agrees h
  | popleftN k => exact popleftN_agrees h k
  | remove b =>
    by_cases hb : b ∈ l
    · obtain ⟨s, t, -, hl, herase⟩ := exists_erase_eq hb
      obtain ⟨s', p, n, -, hprev, hnext, hholds⟩ := remove_holds h hl
      simp only [step, remove, hprev, hnext, listStep, if_pos hb, herase]
      exact ⟨rfl, hholds⟩
    · simp only [step, remove_error h hb, listStep, if_neg hb]
      exact ⟨rfl, h⟩
  | append b =>
    obtain ⟨last, hlast, hholds⟩ := appended_holds h [b] hop
    simp only [step, append, hlast]
    exact ⟨rfl, hholds⟩
  | appendN blocks =>
    obtain ⟨last, hlast, hholds⟩ := appended_holds h blocks hop
    by_cases hb : blocks = []
    · subst hb
      exact ⟨rfl, by simpa [step, appendN, listStep] using h⟩
    · simp only [step, appendN, if_neg hb, hlast]
      exact ⟨rfl, hholds⟩

theorem run_agrees {ops : List Op} (hops : Permitted l ops) :
    Agrees (run step q ops) (run listStep l ops) := by
  induction ops generalizing q l with
  | nil => exact ⟨rfl, h⟩
  | cons op ops ih =>
    obtain ⟨hret, hholds⟩ := step_agrees h hops.1
    obtain ⟨hrets, hrun⟩ := ih hholds hops.2
    exact ⟨congrArg₂ cons hret hrets, hrun⟩

end

/-- The linked list behaves as a plain list, whatever is popped, removed and appended. -/
theorem run_refines_list (blocks : List KVCacheBlock)
    (hb : (fakeHead :: blocks ++ [fakeTail]).Nodup) (ops : List Op)
    (hops : Permitted blocks ops) :
    let (rets, l) := run listStep blocks ops
    let (rets', q) := run step (init blocks) ops
    rets' = rets ∧ (∀ fuel, l.length < fuel → q.getAllFreeBlocks fuel = .ok l) ∧
      q.numFreeBlocks = l.length ∧ (∀ b, q.prev b = none ↔ b ∉ l ++ [fakeTail]) ∧
      (∀ b, q.next b = none ↔ b ∉ fakeHead :: l) ∧
      (∀ x y, q.next x = some y ↔ q.prev y = some x) ∧
      ∀ b ∉ l, q.remove b =
        (.error (.runtimeError "remove() called on an invalid block"), q) := by
  obtain ⟨hrets, h⟩ := run_agrees (init_holds hb) hops
  have hlinks := h.links
  refine ⟨hrets, fun fuel hf => getAllFreeBlocks_eq h hf, h.num, fun b => hlinks.prev_eq_none,
    fun b => ?_, fun x y => (hlinks.next x y).trans (hlinks.prev x y).symm,
    fun b hb => remove_error h hb⟩
  rw [hlinks.next_eq_none, dropLast_concat]

/-- The list is drained and filled again. -/
theorem run_refines_list_refilled : (run step (init (map block [0, 1, 2])) [.remove (block 1),
    .popleftN 2, .popleft, .appendN [block 2, block 0], .append (block 1), .popleft]).1 =
      [.ok [], .ok [block 0, block 2], .error (.valueError "No free blocks available"), .ok [],
        .ok [], .ok [block 2]] :=
  (run_refines_list (map block [0, 1, 2]) (by decide) _
    (by refine ⟨?_, ?_, ?_, ?_, ?_, ?_, trivial⟩ <;> decide)).1

end FreeKVCacheBlockQueue
end TailBlend
