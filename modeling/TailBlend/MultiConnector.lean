import TailBlend.Lib.Dict
import TailBlend.Lib.Trace

/-! Saves by several connectors: the counts of `MultiConnector` on the scheduler and on the workers,
and those of `KVOutputAggregator`. -/
namespace TailBlend.MultiConnector
open List
variable {ι : Type} [DecidableEq ι]

/-- The count of `_aggregate_request_finished`, from the answers of the connectors. -/
def requestFinished (extraAsyncSaves : Dict ι Nat) (req : ι) (asyncSaves : List Bool) : Dict ι Nat :=
  if asyncSaves.count true > 1 then extraAsyncSaves.set req (asyncSaves.count true - 1)
  else extraAsyncSaves

/-- The body of the loops of `get_finished`, with the set `finished_sending`. -/
def finishedSending (s : Dict ι Nat × List ι) (req : ι) : Except PyError (Dict ι Nat × List ι) :=
  match s.1.get? req with
  | none => .ok (s.1, s.2.insert req)
  | some extraPending => do
    pyAssert (extraPending > 0) ""
    return (if extraPending = 1 then s.1.erase req else s.1.set req (extraPending - 1), s.2)

/-- `get_finished`, where each connector returns the requests that it has saved. -/
def getFinished (extraAsyncSaves : Dict ι Nat) (sending : List (List ι)) :
    Except PyError (Dict ι Nat × List ι) :=
  sending.flatten.foldlM finishedSending (extraAsyncSaves, [])

/-- `update_finished_set` of the aggregator, for one request. -/
def updateFinishedSet (expected : Nat) (s : Dict ι Int × List ι) (req : ι) : Dict ι Int × List ι :=
  let remaining := s.1.getD req expected - 1
  if remaining = 0 then (s.1.erase req, s.2.insert req) else (s.1.set req remaining, s.2)

structure System (ι : Type) where
  extraAsyncSaves : Dict ι Nat
  workers : List (Dict ι Nat)
  sendRemainingCount : Dict ι Int
  /-- The `finished_sending` that the scheduler got, step by step. -/
  received : List (List ι)

def System.init (numWorkers : Nat) : System ι := ⟨.empty, replicate numWorkers .empty, .empty, []⟩

/-- A request finishes, or the workers make a step with the metadata that has been built for it;
`sending w` is what the connectors of worker `w` return. -/
inductive Event (ι : Type) where
  | finish (req : ι) (asyncSaves : List Bool)
  | step (sending : Nat → List (List ι))

def System.step (s : System ι) : Event ι → Except PyError (System ι)
  | .finish req asyncSaves =>
    .ok { s with extraAsyncSaves := requestFinished s.extraAsyncSaves req asyncSaves }
  | .step sending => do
    let outs ← s.workers.zipIdx.mapM fun w =>
      getFinished (w.1.update s.extraAsyncSaves) (sending w.2)
    let agg := (outs.flatMap Prod.snd).foldl (updateFinishedSet s.workers.length)
      (s.sendRemainingCount, [])
    return ⟨.empty, outs.map Prod.fst, agg.1, s.received ++ [agg.2]⟩

def Event.finishes (r : ι) : Event ι → Bool
  | .finish req _ => req = r
  | .step _ => false

/-- How often worker `w` reports the request. -/
def Event.reports (r : ι) (w : Nat) : Event ι → Nat
  | .finish _ _ => 0
  | .step sending => (sending w).flatten.count r

variable {r : ι} {n k b W : Nat} {s : Dict ι Nat × List ι}

theorem count_insert (x : ι) (l : List ι) :
    (l.insert x).count r = if x = r then max 1 (l.count r) else l.count r := by
  by_cases hm : x ∈ l
  · grind
  · grind

/-- The extra saves of a worker after `k` of its `n` reports of `r`. -/
structure Extra (r : ι) (n k : Nat) (d : Dict ι Nat) : Prop where
  positive : ∀ x, d.get? x ≠ some 0
  count : d.get? r = if k + 1 < n then some (n - 1 - k) else none

theorem finishedSending_spec (h : Extra r n k s.1)
    (hb : s.2.count r + b = if k = n then 1 else 0) (x : ι) (hk : k + [x].count r ≤ n) :
    ∃ s', finishedSending s x = .ok s' ∧ Extra r n (k + [x].count r) s'.1 ∧
      s'.2.count r + b = if k + [x].count r = n then 1 else 0 := by
  have hr := h.count
  unfold finishedSending
  cases hx : s.1.get? x with
  | none =>
    refine ⟨_, rfl, ⟨h.positive, ?_⟩, ?_⟩
    · grind
    · grind [count_insert]
  | some m =>
    have hm := h.positive x
    simp only [seq_ok_iff, pyAssert_eq_ok]
    refine ⟨_, ⟨(), by grind, rfl⟩, ⟨fun y => ?_, ?_⟩, ?_⟩
    · have := h.positive y
      grind [Dict.get?_set, Dict.get?_erase_self, Dict.get?_erase_of_ne]
    · grind [Dict.get?_set, Dict.get?_erase_self, Dict.get?_erase_of_ne]
    · grind

theorem foldlM_finishedSending {ids : List ι} (h : Extra r n k s.1)
    (hb : s.2.count r + b = if k = n then 1 else 0) (hk : k + ids.count r ≤ n) :
    ∃ s', ids.foldlM finishedSending s = .ok s' ∧ Extra r n (k + ids.count r) s'.1 ∧
      s'.2.count r + b = if k + ids.count r = n then 1 else 0 := by
  induction ids generalizing s k with
  | nil => exact ⟨s, rfl, h, hb⟩
  | cons x ids ih =>
    rw [← singleton_append, count_append, ← Nat.add_assoc] at hk ⊢
    obtain ⟨s1, h1, hextra, hsent⟩ := finishedSending_spec h hb x (by omega)
    obtain ⟨s', h', hs'⟩ := ih hextra hsent hk
    exact ⟨s', (seq_ok_iff ..).mpr ⟨s1, h1, h'⟩, hs'⟩

/-- What the aggregator has of `r` when `m` of `W` workers are done. -/
structure Remaining (r : ι) (W b m : Nat) (s : Dict ι Int × List ι) : Prop where
  count : s.1.get? r = if 0 < m ∧ m < W then some (W - m : Int) else none
  sent : s.2.count r + b = if m = W then 1 else 0

theorem updateFinishedSet_spec {s : Dict ι Int × List ι} {m : Nat} (h : Remaining r W b m s)
    (x : ι) (hm : m + [x].count r ≤ W) :
    Remaining r W b (m + [x].count r) (updateFinishedSet W s x) := by
  obtain ⟨hcount, hsent⟩ := h
  unfold updateFinishedSet Dict.getD
  constructor
  · grind [Dict.get?_set, Dict.get?_erase_self, Dict.get?_erase_of_ne]
  · grind [count_insert]

theorem foldl_updateFinishedSet {ids : List ι} {s : Dict ι Int × List ι} {m : Nat}
    (h : Remaining r W b m s) (hm : m + ids.count r ≤ W) :
    Remaining r W b (m + ids.count r) (ids.foldl (updateFinishedSet W) s) := by
  induction ids generalizing s m with
  | nil => exact h
  | cons x ids ih =>
    rw [← singleton_append, count_append, ← Nat.add_assoc] at hm ⊢
    exact ih (updateFinishedSet_spec h x (by omega)) hm

/-- The workers among the given ones that have reported the request `n` times. -/
def done (n : Nat) (k : Nat → Nat) (ws : List Nat) : Nat := ws.countP (fun w => k w = n)

variable {k k' : Nat → Nat} {s : System ι}

theorem workers_spec {ws : List (Dict ι Nat)} {extra : Dict ι Nat} {sending : Nat → List (List ι)}
    (i : Nat) (hk' : ∀ w, k' w = k w + (sending w).flatten.count r)
    (hws : ∀ w ∈ ws.zipIdx i, Extra r n (k w.2) (w.1.update extra) ∧ k' w.2 ≤ n) :
    ∃ outs, (ws.zipIdx i).mapM (fun w => getFinished (w.1.update extra) (sending w.2)) = .ok outs ∧
      outs.length = ws.length ∧
      (∀ w ∈ (outs.map Prod.fst).zipIdx i, Extra r n (k' w.2) w.1) ∧
      done n k (range' i ws.length) + (outs.flatMap Prod.snd).count r =
        done n k' (range' i ws.length) := by
  induction ws generalizing i with
  | nil => exact ⟨[], rfl, rfl, nofun, rfl⟩
  | cons d ws ih =>
    obtain ⟨⟨hextra, hle⟩, hws⟩ := forall_mem_cons.mp hws
    obtain ⟨o, ho, hextra', hsent⟩ := foldlM_finishedSending (s := (d.update extra, []))
      (b := if k i = n then 1 else 0) hextra (Nat.zero_add _) (hk' i ▸ hle)
    rw [← hk' i] at hextra' hsent
    obtain ⟨outs, houts, hlen, hall, hdone⟩ := ih (i + 1) hws
    refine ⟨o :: outs, ?_, congrArg (· + 1) hlen, forall_mem_cons.mpr ⟨hextra', hall⟩, ?_⟩
    · rw [zipIdx_cons, mapM_cons]
      simp only [seq_ok_iff]
      exact ⟨o, ho, outs, houts, rfl⟩
    · rw [flatMap_cons, count_append, length_cons, range'_succ]
      unfold done at hdone ⊢
      simp only [countP_cons, decide_eq_true_eq]
      omega

/-- Worker `w` has reported `r` `k w` times, of `n`. -/
structure Inv (r : ι) (n W : Nat) (k : Nat → Nat) (s : System ι) : Prop where
  length : s.workers.length = W
  worker : ∀ w ∈ s.workers.zipIdx, Extra r n (k w.2) (w.1.update s.extraAsyncSaves)
  remaining : Remaining r W (s.received.flatten.count r) (done n k (range W))
    (s.sendRemainingCount, [])

theorem get?_update_requestFinished (d extra : Dict ι Nat) (req x : ι) (saves : List Bool) :
    (d.update (requestFinished extra req saves)).get? x =
      if x = req ∧ saves.count true > 1 then some (saves.count true - 1)
      else (d.update extra).get? x := by
  unfold requestFinished
  grind [Dict.get?_update, Dict.get?_set]

theorem Inv.step (h : Inv r n W k s) {e : Event ι} (he : e.finishes r = false)
    (hk : ∀ w < W, k w + e.reports r w ≤ n) :
    ∃ s', s.step e = .ok s' ∧ Inv r n W (fun w => k w + e.reports r w) s' := by
  cases e with
  | finish req saves =>
    have hne : r ≠ req := fun heq => of_decide_eq_false he heq.symm
    refine ⟨_, rfl, h.length, fun w hw => ?_, h.remaining⟩
    obtain ⟨hpos, hcount⟩ := h.worker w hw
    refine ⟨fun x => ?_, ?_⟩
    · grind [get?_update_requestFinished]
    · rw [get?_update_requestFinished, if_neg (fun hr => hne hr.1)]
      exact hcount
  | step sending =>
    obtain ⟨outs, houts, hlen, hall, hdone⟩ := workers_spec (n := n) 0 (fun _ => rfl)
      (fun w hw => ⟨h.worker w hw, hk w.2 (h.length ▸ snd_lt_of_mem_zipIdx hw)⟩)
    rw [h.length, ← range_eq_range'] at hdone
    have hrem := foldl_updateFinishedSet h.remaining
      (hdone.trans_le (countP_le_length.trans_eq length_range))
    rw [hdone] at hrem
    refine ⟨_, (seq_ok_iff ..).mpr ⟨outs, houts, rfl⟩, ?_, fun w hw => ?_, ?_, ?_⟩
    · exact (length_map _).trans (hlen.trans h.length)
    · obtain ⟨hpos, hcount⟩ := hall w hw
      refine ⟨fun x => ?_, ?_⟩
      · exact hpos x
      · exact hcount
    · rw [h.length]
      exact hrem.count
    · rw [flatten_append, flatten_singleton, count_append, h.length, count_nil,
        Nat.zero_add, Nat.add_comm]
      exact hrem.sent

theorem Inv.run (h : Inv r n W k s) {es : List (Event ι)} (hes : ∀ e ∈ es, e.finishes r = false)
    (hk : ∀ w < W, k w + (es.map (Event.reports r w)).sum ≤ n) :
    ∃ s', Trace.run System.step s es = .ok s' ∧
      Inv r n W (fun w => k w + (es.map (Event.reports r w)).sum) s' := by
  induction es generalizing s k with
  | nil => exact ⟨s, rfl, h⟩
  | cons e es ih =>
    obtain ⟨he, hes⟩ := forall_mem_cons.mp hes
    simp only [map_cons, sum_cons, ← Nat.add_assoc] at hk ⊢
    obtain ⟨s1, h1, hinv⟩ := h.step he (fun w hw => by have := hk w hw; omega)
    obtain ⟨s', h', hinv'⟩ := ih hinv hes hk
    exact ⟨s', (seq_ok_iff ..).mpr ⟨s1, h1, h'⟩, hinv'⟩

theorem done_zero (hn : 0 < n) (hk : ∀ w < W, k w = 0) : done n k (range W) = 0 := by
  refine countP_eq_zero.mpr fun w hw => ?_
  rw [hk w (mem_range.mp hw), decide_eq_true_eq]
  omega

theorem inv_init (hW : 0 < W) : Inv r 1 W (fun _ => 0) (System.init W) := by
  have h0 : done 1 (fun _ => 0) (range W) = 0 := done_zero Nat.one_pos (fun _ _ => rfl)
  refine ⟨length_replicate, fun w hw => ?_, by rw [h0]; rfl, ?_⟩
  · have hw : w.1 = Dict.empty := eq_of_mem_replicate (fst_mem_of_mem_zipIdx hw)
    rw [hw]
    exact ⟨nofun, rfl⟩
  · rw [if_neg (by omega)]
    rfl

theorem Inv.finish (h : Inv r 1 W k s) (hk : ∀ w < W, k w = 0) {saves : List Bool}
    (hn : 0 < saves.count true) :
    Inv r (saves.count true) W (fun _ => 0)
      { s with extraAsyncSaves := requestFinished s.extraAsyncSaves r saves } := by
  have h0 : done 1 k (range W) = done (saves.count true) (fun _ => 0) (range W) :=
    (done_zero Nat.one_pos hk).trans (done_zero hn (fun _ _ => rfl)).symm
  refine ⟨h.length, fun w hw => ?_, h0 ▸ h.remaining⟩
  obtain ⟨hpos, hcount⟩ := h.worker w hw
  refine ⟨fun x => ?_, ?_⟩
  · grind [get?_update_requestFinished]
  · grind [get?_update_requestFinished]

theorem done_eq_iff : done n k (range W) = W ↔ ∀ w < W, k w = n := by
  have h := countP_eq_length (p := fun w => decide (k w = n)) (l := range W)
  simp only [length_range, mem_range, decide_eq_true_eq] at h
  exact h

/-- A request with asynchronous saves is given to the scheduler once, when every worker has reported
each of the saves, and then no count is left of it. As the run may end anywhere, this is in the step
of the last report. -/
theorem finishedSending_once (r : ι) (saves : List Bool) (hsaves : true ∈ saves) (hW : 0 < W)
    (es₁ es₂ : List (Event ι)) (hes₁ : ∀ e ∈ es₁, e.finishes r = false ∧ ∀ w < W, e.reports r w = 0)
    (hes₂ : ∀ e ∈ es₂, e.finishes r = false)
    (hreports : ∀ w < W, (es₂.map (Event.reports r w)).sum ≤ saves.count true) :
    ∃ s, Trace.run System.step (System.init W) (es₁ ++ .finish r saves :: es₂) = .ok s ∧
      if ∀ w < W, (es₂.map (Event.reports r w)).sum = saves.count true then
        s.received.flatten.count r = 1 ∧ s.extraAsyncSaves.get? r = none ∧
          (∀ d ∈ s.workers, d.get? r = none) ∧ s.sendRemainingCount.get? r = none
      else s.received.flatten.count r = 0 := by
  have hzero : ∀ w < W, 0 + (es₁.map (Event.reports r w)).sum = 0 := fun w hw =>
    (Nat.zero_add _).trans (sum_eq_zero (forall_mem_map.mpr fun e he => (hes₁ e he).2 w hw))
  obtain ⟨s₁, h₁, hinv₁⟩ := (inv_init (r := r) hW).run (fun e he => (hes₁ e he).1)
    (fun w hw => (hzero w hw).trans_le (Nat.zero_le 1))
  obtain ⟨s, h, hinv⟩ := (hinv₁.finish hzero (count_pos_iff.mpr hsaves)).run hes₂
    (by simpa only [Nat.zero_add] using hreports)
  simp only [Nat.zero_add] at hinv
  obtain ⟨hlen, hworker, hcount, hsent⟩ := hinv
  simp only [done_eq_iff, count_nil, Nat.zero_add] at hsent
  refine ⟨s, by rw [Trace.run_append, h₁]; exact h, ?_⟩
  split
  next hall =>
    have hnone : ∀ d ∈ s.workers, s.extraAsyncSaves.get? r = none ∧ d.get? r = none := by
      intro d hd
      rw [← zipIdx_map_fst 0 s.workers] at hd
      obtain ⟨w, hw, rfl⟩ := mem_map.mp hd
      have hget := (hworker w hw).count
      rwa [hall w.2 (hlen ▸ snd_lt_of_mem_zipIdx hw), if_neg (by omega),
        Dict.get?_update, Option.or_eq_none_iff] at hget
    obtain ⟨d, hd⟩ := exists_mem_of_length_pos (hlen ▸ hW)
    refine ⟨hsent.trans (if_pos hall), (hnone d hd).1, fun d hd => (hnone d hd).2, ?_⟩
    exact hcount.trans (if_neg (fun hlt => hlt.2.ne (done_eq_iff.mpr hall)))
  next hall => exact hsent.trans (if_neg hall)

/-- The first worker has both saves done in the step that brings the count. -/
def twoSaves : List (Event Nat) :=
  [.step fun w => if w = 0 then [[7], [7]] else [[], [7]], .step fun w => [[7].take w]]

theorem finishedSending_once_two : ∃ s, Trace.run System.step (System.init 2)
    ([] ++ .finish 7 [true, false, true] :: twoSaves) = .ok s ∧ s.received.flatten.count 7 = 1 := by
  obtain ⟨s, hs, h⟩ := finishedSending_once 7 [true, false, true] (by decide) Nat.two_pos []
    twoSaves nofun (by decide) (by decide)
  exact ⟨s, hs, h.1⟩

end TailBlend.MultiConnector
