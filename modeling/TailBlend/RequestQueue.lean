import TailBlend.Lib.Heap
import TailBlend.Request
import Mathlib.Data.List.Dedup

/-! The request queues of both policies, as lists of request ids: a FIFO deque, or a heap
ordered by `Request.__lt__`. -/
namespace TailBlend

inductive SchedulingPolicy where
  | fcfs
  | priority
  deriving DecidableEq, Repr

namespace RequestQueue
variable {α : Type} [DecidableEq α] (policy : SchedulingPolicy) (lt : α → α → Bool)

def addRequest (q : List α) (r : α) : List α :=
  match policy with
  | .fcfs => q ++ [r]
  | .priority => Heap.heappush lt q r

def popRequest (q : List α) : List α :=
  match policy with
  | .fcfs => q.tail
  | .priority => ((Heap.heappop lt q).map Prod.snd).getD []

def prependRequest (q : List α) (r : α) : List α :=
  match policy with
  | .fcfs => r :: q
  | .priority => Heap.heappush lt q r

/-- `prepend_requests`: `extendleft` reverses the other queue. -/
def prependRequests (q other : List α) : List α :=
  match policy with
  | .fcfs => other.reverse ++ q
  | .priority => (Heap.drain lt other.length other).foldl (Heap.heappush lt) q

def removeRequests (q rs : List α) : List α :=
  match policy with
  | .fcfs => q.filter (fun r => r ∉ rs)
  | .priority => Heap.heapify lt (q.filter (fun r => r ∉ rs))

/-! Membership does not depend on the policy. -/

section
omit [DecidableEq α]

theorem addRequest_perm (q : List α) (r : α) : (addRequest policy lt q r).Perm (r :: q) := by
  cases policy with
  | fcfs => exact List.perm_append_singleton r q
  | priority => exact Heap.heappush_perm lt q r

theorem prependRequest_perm (q : List α) (r : α) :
    (prependRequest policy lt q r).Perm (r :: q) := by
  cases policy with
  | fcfs => exact .refl _
  | priority => exact Heap.heappush_perm lt q r

theorem popRequest_perm {q : List α} {r : α} (h : q.head? = some r) :
    (r :: popRequest policy lt q).Perm q := by
  cases q with
  | nil => simp at h
  | cons x xs =>
    obtain rfl : x = r := by simpa using h
    cases policy with
    | fcfs => exact .refl _
    | priority =>
      cases hp : Heap.heappop lt (x :: xs) with
      | none =>
        simp only [Heap.heappop] at hp
        split at hp <;> simp at hp
      | some res =>
        obtain ⟨y, l⟩ := res
        obtain ⟨hy, hperm⟩ := Heap.heappop_perm lt hp
        obtain rfl : x = y := by simpa using hy
        simpa [popRequest, hp] using hperm

theorem foldl_heappush_perm (rs q : List α) : (rs.foldl (Heap.heappush lt) q).Perm (rs ++ q) := by
  induction rs generalizing q with
  | nil => exact .refl _
  | cons r rs ih =>
    have h := (ih (Heap.heappush lt q r)).trans ((Heap.heappush_perm lt q r).append_left rs)
    exact h.trans List.perm_middle

theorem prependRequests_perm (q other : List α) :
    (prependRequests policy lt q other).Perm (other ++ q) := by
  cases policy with
  | fcfs => exact (List.reverse_perm other).append_right q
  | priority => exact (foldl_heappush_perm lt _ q).trans ((Heap.drain_perm lt other).append_right q)

end

theorem removeRequests_perm (q rs : List α) :
    (removeRequests policy lt q rs).Perm (q.filter (fun r => r ∉ rs)) := by
  cases policy with
  | fcfs => exact .refl _
  | priority => exact Heap.heapify_perm lt _

end RequestQueue

/-- `remove_all`: a single item is removed by `list.remove`, its first occurrence only. -/
def removeAll {α : Type} [DecidableEq α] (l items : List α) : List α :=
  match items.dedup with
  | [] => l
  | [item] => l.erase item
  | items => l.filter (fun r => r ∉ items)

theorem removeAll_eq_filter {α : Type} [DecidableEq α] {l : List α} (hn : l.Nodup)
    (items : List α) : removeAll l items = l.filter (fun r => r ∉ items) := by
  have hmem (r : α) : r ∈ items ↔ r ∈ items.dedup := List.mem_dedup.symm
  simp only [hmem, removeAll]
  split
  · rename_i h
    simp [h]
  · rename_i item h
    rw [h, hn.erase_eq_filter]
    congr 1
    ext r
    by_cases hr : r = item <;> simp [hr]
  · rfl

end TailBlend
