import TailBlend.NixlMapping
import TailBlend.Lib.OrderedDict
import TailBlend.Lib.Trace
import Mathlib.Order.Interval.Finset.Nat

/-! The notifications by which decode ranks release the blocks of a prefill rank. -/
namespace TailBlend.Nixl
open TransferTopology List

namespace TransferTopology
variable (t : TransferTopology) (remoteTpSize : Nat)

def handshakeTargetRanks : List Nat :=
  if t.tpSize ≥ remoteTpSize then [t.tpRank / (t.tpSize / remoteTpSize)]
  else
    let absRatio := remoteTpSize / t.tpSize
    (List.range absRatio).map (t.tpRank * absRatio + ·)

/-- The ranks that are notified in `_read_blocks_for_req`, after a handshake in which the heads of
the remote engine are validated. Those that are read from get the notification with their read. -/
def notifiedRanks (groupSpecTypes : List GroupSpec) : Except PyError (List Nat) := do
  pyAssert (t.isMla ∨ .mamba ∈ groupSpecTypes ∨
    ¬(t.tpSize < remoteTpSize ∧ remoteTpSize > t.totalNumKvHeads)) ""
  let readRanks := (t.computeTpMapping remoteTpSize groupSpecTypes).allSourceRanks
  if t.isMla ∧ t.tpSize < remoteTpSize then
    pyAssert (readRanks.length = 1) ""
    return readRanks ++ (t.handshakeTargetRanks remoteTpSize).filter (some · ≠ readRanks.head?)
  return readRanks

end TransferTopology

theorem mem_allSourceRanks (t : TransferTopology) (P : Nat) (groups : List GroupSpec) (r : Nat) :
    r ∈ (t.computeTpMapping P groups).allSourceRanks ↔
      r ∈ t.attnRanks P ∨ r ∈ t.ssmRanks P groups := by
  simp [computeTpMapping]

/-- Ranks that hold different heads are all read from. -/
theorem uniqueIdx_of_lt {heads : Nat → Nat} (h : ∀ i j, i < j → heads i < heads j) (n i : Nat) :
    i ∈ uniqueIdx ((range n).map heads) ↔ i < n := by
  simp only [uniqueIdx, mem_filter, mem_range, length_map, length_range,
    decide_eq_true_eq, and_iff_left_iff_imp]
  intro hi j hj heq
  rw [getElem?_map, getElem?_map, getElem?_range (hj.trans hi), getElem?_range hi] at heq
  have := h j i hj
  simp at heq
  omega

theorem head_lt {K P : Nat} (hP : 0 < P) (hK : P ≤ K) {i j : Nat} (h : i < j) :
    i * K / P < j * K / P := by
  have hle : i * K + P ≤ j * K := by nlinarith
  calc i * K / P < i * K / P + 1 := Nat.lt_succ_self _
    _ = (i * K + P) / P := (Nat.add_div_right _ hP).symm
    _ ≤ j * K / P := Nat.div_le_div_right hle

section ranks
variable {t : TransferTopology} {P : Nat} {groups : List GroupSpec} {ranks : List Nat}

theorem mem_group {a d r : Nat} : (∃ i < a, d * a + i = r) ↔ d * a ≤ r ∧ r < d * a + a := by
  constructor
  · omega
  · rintro ⟨hle, hlt⟩
    exact ⟨r - d * a, by omega, by omega⟩

/-- A rank of a smaller engine reads within its group, and all of it where the heads differ. -/
theorem mem_attnRanks_of_lt {a : Nat} (hD : 0 < t.tpSize) (hP : P = t.tpSize * a)
    (hlt : t.tpSize < P) (hmla : t.isMla = false) (r : Nat) :
    (r ∈ t.attnRanks P → t.tpRank * a ≤ r ∧ r < t.tpRank * a + a) ∧
      (P ≤ t.totalNumKvHeads → t.tpRank * a ≤ r ∧ r < t.tpRank * a + a → r ∈ t.attnRanks P) := by
  have ha : P / t.tpSize = a := by rw [hP, Nat.mul_div_cancel_left _ hD]
  rw [attnRanks, if_neg (by simp [hmla, hlt])]
  simp only [ha, ← mem_group, mem_map]
  refine ⟨?_, fun hK => ?_⟩
  · rintro ⟨i, hi, rfl⟩
    exact ⟨i, by simpa using mem_range.mp (mem_filter.mp hi).1, rfl⟩
  · rintro ⟨i, hi, rfl⟩
    refine ⟨i, (uniqueIdx_of_lt (fun x y hxy => ?_) a i).mpr hi, rfl⟩
    exact head_lt (by omega) hK (by omega)

/-- A rank of a larger engine notifies the rank that holds its heads. -/
theorem mem_notifiedRanks_of_ge {e : Nat} (hP : 0 < P) (he : 0 < e) (hD : t.tpSize = P * e)
    (h : t.notifiedRanks P groups = .ok ranks) (r : Nat) :
    r ∈ ranks ↔ r * e ≤ t.tpRank ∧ t.tpRank < r * e + e := by
  have hle : P ≤ t.tpSize := hD ▸ Nat.le_mul_of_pos_right P he
  simp only [notifiedRanks, seq_ok_iff] at h
  obtain ⟨_, -, h⟩ := h
  rw [if_neg (fun hc => hc.2.not_ge hle)] at h
  cases h
  have hattn : t.attnRanks P = [t.tpRank / e] := by
    rw [attnRanks, if_pos (.inr hle), hD, Nat.mul_comm, Nat.mul_div_mul_left _ _ hP]
  have hdiv : r = t.tpRank / e ↔ r * e ≤ t.tpRank ∧ t.tpRank < r * e + e := by
    rw [eq_comm, Nat.div_eq_iff he]
    omega
  rw [mem_allSourceRanks, ssmRanks, if_neg (Nat.not_lt.mpr hle), hattn, ← hdiv]
  split <;> simp

/-- A rank of a smaller engine notifies all of its group. -/
theorem mem_notifiedRanks_of_lt {a : Nat} (hD : 0 < t.tpSize) (hP : P = t.tpSize * a)
    (hlt : t.tpSize < P) (h : t.notifiedRanks P groups = .ok ranks) (r : Nat) :
    r ∈ ranks ↔ t.tpRank * a ≤ r ∧ r < t.tpRank * a + a := by
  have hdiv : P / t.tpSize = a := by rw [hP, Nat.mul_div_cancel_left _ hD]
  simp only [notifiedRanks, seq_ok_iff] at h
  obtain ⟨_, hheads, h⟩ := h
  by_cases hmla : t.isMla = true
  · rw [if_pos ⟨hmla, hlt⟩] at h
    simp only [seq_ok_iff, pyAssert_eq_ok] at h
    obtain ⟨_, hlen, h⟩ := h
    cases h
    have hfirst : t.tpRank * a ∈ (t.computeTpMapping P groups).allSourceRanks := by
      rw [mem_allSourceRanks, attnRanks, if_pos (.inl hmla), hP,
        Nat.mul_left_comm, Nat.mul_div_cancel_left _ hD]
      exact .inl (mem_singleton_self _)
    obtain ⟨x, hx⟩ := length_eq_one_iff.mp hlen
    rw [hx, mem_singleton] at hfirst
    have ha : 0 < a := Nat.pos_of_ne_zero (by rintro rfl; omega)
    simp only [hx, handshakeTargetRanks, hdiv, if_neg hlt.not_ge]
    simp only [singleton_append, mem_cons, mem_filter, mem_map,
      mem_range, mem_group, head?_cons, ne_eq, Option.some.injEq, decide_not,
      Bool.not_eq_true', decide_eq_false_iff_not]
    omega
  · rw [if_neg (fun hc => hmla hc.1)] at h
    cases h
    have hmla : t.isMla = false := by simpa using hmla
    have hattn := mem_attnRanks_of_lt hD hP hlt hmla r
    rw [mem_allSourceRanks, ssmRanks, if_pos hlt, hdiv]
    by_cases hmamba : GroupSpec.mamba ∈ groups
    · rw [if_pos hmamba, mem_range'_1]
      exact ⟨fun hr => hr.elim hattn.1 id, .inr⟩
    · rw [if_neg hmamba]
      have hK : P ≤ t.totalNumKvHeads := by simpa [hmla, hmamba, hlt] using hheads
      exact ⟨fun hr => hattn.1 (by simpa using hr), fun hr => .inl (hattn.2 hK hr)⟩

theorem nodup_allSourceRanks : (t.computeTpMapping P groups).allSourceRanks.Nodup :=
  (perm_insertionSort _ _).nodup_iff.mpr (nodup_dedup _)

theorem nodup_notifiedRanks (h : t.notifiedRanks P groups = .ok ranks) : ranks.Nodup := by
  simp only [notifiedRanks, seq_ok_iff] at h
  obtain ⟨_, -, h⟩ := h
  have hread := @nodup_allSourceRanks t P groups
  split at h
  · simp only [seq_ok_iff, pyAssert_eq_ok] at h
    obtain ⟨_, hlen, h⟩ := h
    cases h
    obtain ⟨x, hx⟩ := length_eq_one_iff.mp hlen
    rw [hx, singleton_append, nodup_cons]
    refine ⟨by simp, Nodup.filter _ ?_⟩
    unfold handshakeTargetRanks
    split
    · exact nodup_singleton _
    · exact nodup_range.map (fun _ _ => Nat.add_left_cancel)
  · cases h
    exact hread

end ranks

/-- The number of notifications for which a prefill rank waits, `-tp_ratio` seen from its side. -/
def consumersPerProducer (worldSize nConsumers : Nat) : Nat :=
  if nConsumers > worldSize then nConsumers / worldSize else 1

theorem card_notifying {P D K r : Nat} {isMla : Bool} {groups : List GroupSpec}
    {ranks : Nat → List Nat} (hD : 0 < D) (hPD : P ∣ D ∨ D ∣ P) (hr : r < P)
    (h : ∀ d < D, notifiedRanks ⟨d, D, isMla, K⟩ P groups = .ok (ranks d)) :
    ((Finset.range D).filter (fun d => r ∈ ranks d)).card = consumersPerProducer P D := by
  have hP : 0 < P := by omega
  unfold consumersPerProducer
  by_cases hle : P ≤ D
  · obtain ⟨e, rfl⟩ : P ∣ D := hPD.elim id (fun hd => by
      rw [show P = D from le_antisymm hle (Nat.le_of_dvd hP hd)])
    have he : 0 < e := Nat.pos_of_mul_pos_left hD
    have hset : (Finset.range (P * e)).filter (fun d => r ∈ ranks d) =
        Finset.Ico (r * e) (r * e + e) := by
      have hlast : (r + 1) * e ≤ P * e := Nat.mul_le_mul_right e hr
      rw [Nat.add_mul] at hlast
      ext d
      rw [Finset.mem_filter, Finset.mem_range, Finset.mem_Ico]
      exact ⟨fun hd => (mem_notifiedRanks_of_ge hP he rfl (h d hd.1) r).mp hd.2, fun hd =>
        ⟨by omega, (mem_notifiedRanks_of_ge hP he rfl (h d (by omega)) r).mpr hd⟩⟩
    rw [hset, Nat.card_Ico, Nat.add_sub_cancel_left, Nat.mul_div_cancel_left _ hP]
    split
    · rfl
    · exact Nat.eq_of_mul_eq_mul_left hP (by omega)
  · obtain ⟨a, rfl⟩ := hPD.resolve_left (fun hd => hle (Nat.le_of_dvd hD hd))
    have ha : 0 < a := Nat.pos_of_mul_pos_left hP
    have hlt : r / a < D := Nat.div_lt_of_lt_mul (by rwa [Nat.mul_comm])
    have hset : (Finset.range D).filter (fun d => r ∈ ranks d) = {r / a} := by
      ext d
      have hdiv : d = r / a ↔ d * a ≤ r ∧ r < d * a + a := by
        rw [eq_comm, Nat.div_eq_iff ha]
        omega
      have hmem (hd : d < D) := mem_notifiedRanks_of_lt hD rfl (Nat.lt_of_not_le hle) (h d hd) r
      rw [Finset.mem_filter, Finset.mem_range, Finset.mem_singleton, hdiv]
      exact ⟨fun hd => (hmem hd.1).mp hd.2, fun hd =>
        have hlt : d < D := hdiv.mpr hd ▸ hlt
        ⟨hlt, (hmem hlt).mpr hd⟩⟩
    rw [hset, Finset.card_singleton, if_neg (by omega)]

/-! The worker of a prefill rank. -/

/-- A message `req_id:tp_size` of a decode rank. -/
structure Notif (ι : Type) where
  sender : Nat
  req : ι
  tpSize : Nat

structure Producer (ι : Type) where
  /-- Each with the time at which it expires, the oldest first. -/
  reqsToSend : List (ι × Nat)
  reqsToProcess : Finset ι
  consumerNotificationCounts : Dict ι Nat
  /-- What `get_finished` has returned so far. -/
  doneSending : List ι

variable {ι : Type} [DecidableEq ι]

namespace Producer

def init : Producer ι := ⟨[], ∅, .empty, []⟩

/-- The request is returned, and `rest` is what is still to be sent. -/
def finish (p : Producer ι) (req : ι) (rest : List (ι × Nat)) : Except PyError (Producer ι) :=
  if req ∈ p.reqsToProcess then
    .ok ⟨rest, p.reqsToProcess.erase req, p.consumerNotificationCounts.erase req,
      p.doneSending ++ [req]⟩
  else .error .keyError

def newNotif (worldSize : Nat) (p : Producer ι) (n : Notif ι) : Except PyError (Producer ι) :=
  if n.req ∉ p.reqsToSend.map Prod.fst ∧ n.req ∉ p.reqsToProcess then .ok p
  else do
    pyAssert (n.tpSize ∣ worldSize ∨ worldSize ∣ n.tpSize) ""
    let count := p.consumerNotificationCounts.getD n.req 0 + 1
    if count = consumersPerProducer worldSize n.tpSize then
      p.finish n.req (OrderedDict.erase p.reqsToSend n.req)
    else return { p with
      consumerNotificationCounts := p.consumerNotificationCounts.set n.req count }

def expire (now : Nat) : List (ι × Nat) → Producer ι → Except PyError (Producer ι)
  | [], p => .ok p
  | (req, expires) :: rest, p =>
    if now < expires then .ok p
    else do
      let p ← p.finish req rest
      expire now rest p

def startLoadKv (p : Producer ι) (inBatch notProcessed : List ι) (toSend : List (ι × Nat)) :
    Except PyError (Producer ι) := do
  let processing := (p.reqsToProcess ∪ inBatch.toFinset) \ notProcessed.toFinset
  pyAssert (∀ req ∈ notProcessed, req ∉ p.reqsToSend.map Prod.fst) ""
  return { p with
    reqsToProcess := processing
    reqsToSend := (toSend.filter (·.1 ∈ processing)).foldl
      (fun d e => OrderedDict.set d e.1 e.2) p.reqsToSend }

end Producer

/-- A call of `get_finished` handles its messages and then what has expired. -/
inductive Event (ι : Type) where
  | start (inBatch notProcessed : List ι) (toSend : List (ι × Nat))
  | notif (n : Notif ι)
  | expire (now : Nat)

namespace Event

def admits (q : ι) : Event ι → Bool
  | .start inBatch _ _ => q ∈ inBatch
  | _ => false

def sender? (q : ι) : Event ι → Option Nat
  | .notif n => if n.req = q then some n.sender else none
  | _ => none

end Event

def Producer.step (worldSize : Nat) (p : Producer ι) : Event ι → Except PyError (Producer ι)
  | .start inBatch notProcessed toSend => p.startLoadKv inBatch notProcessed toSend
  | .notif n => p.newNotif worldSize n
  | .expire now => p.expire now p.reqsToSend

/-- A step of the worker in which the request is neither aborted nor expires: it is to be sent
until `T` at the earliest, its consumers are an engine of `D` ranks, no other request is aborted
after its timer is set, and the sizes of all engines divide each other. -/
def Serves (q : ι) (P D T : Nat) (p : Producer ι) : Event ι → Prop
  | .start _ notProcessed toSend => q ∉ notProcessed ∧ (∀ e ∈ toSend, e.1 = q → T ≤ e.2) ∧
      ∀ req ∈ notProcessed, req ∉ p.reqsToSend.map Prod.fst
  | .notif n => (n.tpSize ∣ P ∨ P ∣ n.tpSize) ∧ (n.req = q → n.tpSize = D)
  | .expire now => now < T

/-- The worker waits for `e` notifications of `q`, of which `k` have arrived. -/
structure Tracked (q : ι) (e T k : Nat) (admitted : Bool) (p : Producer ι) : Prop where
  keys : (p.reqsToSend.map Prod.fst).Nodup
  known : ∀ x ∈ p.reqsToSend, x.1 ∈ p.reqsToProcess
  timer : ∀ x ∈ p.reqsToSend, x.1 = q → T ≤ x.2
  waiting : k < e → p.consumerNotificationCounts.getD q 0 = k ∧ p.doneSending.count q = 0 ∧
    (admitted = true → q ∈ p.reqsToProcess)
  done : e ≤ k → q ∉ p.reqsToProcess ∧ p.doneSending.count q = 1

section tracked
variable {q : ι} {P D T k e : Nat} {admitted : Bool} {p : Producer ι}

theorem Tracked.finish (h : Tracked q e T k admitted p) {x : ι} {rest : List (ι × Nat)}
    (hx : x ∈ p.reqsToProcess) (hrest : rest.Sublist p.reqsToSend) (hgone : x ∉ rest.map Prod.fst)
    (hlast : x = q → k + 1 = e) :
    ∃ p', p.finish x rest = .ok p' ∧ p'.reqsToSend = rest ∧
      Tracked q e T (if x = q then k + 1 else k) admitted p' := by
  rw [Producer.finish, if_pos hx]
  refine ⟨_, rfl, rfl, h.keys.sublist (hrest.map _), fun y hy => ?_,
    fun y hy => h.timer y (hrest.subset hy), fun hk => ?_, fun hk => ?_⟩
  · refine Finset.mem_erase.mpr ⟨fun heq => hgone ?_, h.known y (hrest.subset hy)⟩
    exact heq ▸ mem_map_of_mem hy
  · have hne : x ≠ q := fun heq => by
      rw [if_pos heq, hlast heq] at hk
      omega
    rw [if_neg hne] at hk
    simpa [hne, hne.symm] using h.waiting hk
  · by_cases heq : x = q
    · have := (h.waiting (by have := hlast heq; omega)).2.1
      simp_all
    · rw [if_neg heq] at hk
      simpa [heq, Ne.symm heq] using h.done hk

theorem newNotif_tracked (he : e = consumersPerProducer P D) (h : Tracked q e T k admitted p)
    {n : Notif ι} (hs : Serves q P D T p (.notif n))
    (hq : n.req = q → k < e ∧ admitted = true) :
    ∃ p', p.newNotif P n = .ok p' ∧ Tracked q e T (if n.req = q then k + 1 else k) admitted p' := by
  rw [Producer.newNotif]
  by_cases hin : n.req ∈ p.reqsToProcess
  swap
  · have hne : n.req ≠ q := fun heq => by
      obtain ⟨hk, hadm⟩ := hq heq
      exact hin (heq ▸ (h.waiting hk).2.2 hadm)
    have hout : n.req ∉ p.reqsToSend.map Prod.fst := fun hm => by
      obtain ⟨x, hx, hreq⟩ := mem_map.mp hm
      exact hin (hreq ▸ h.known x hx)
    rw [if_pos ⟨hout, hin⟩, if_neg hne]
    exact ⟨p, rfl, h⟩
  rw [if_neg (fun hc => hc.2 hin)]
  simp only [seq_ok_iff, pyAssert_eq_ok, exists_const, hs.1, true_and]
  have hcount (heq : n.req = q) : p.consumerNotificationCounts.getD n.req 0 = k :=
    heq ▸ (h.waiting (hq heq).1).1
  split
  · obtain ⟨p', hp', -, hT⟩ := h.finish hin filter_sublist
      (by simp [OrderedDict.keys_erase] :
        n.req ∉ (OrderedDict.erase p.reqsToSend n.req).map Prod.fst)
      (fun heq => by rw [he, ← hcount heq, ← hs.2 heq]; assumption)
    exact ⟨p', hp', hT⟩
  refine ⟨_, rfl, h.keys, h.known, h.timer, fun hk => ?_, fun hk => ?_⟩
  · by_cases heq : n.req = q
    · obtain ⟨hwait, hsent, hmem⟩ := h.waiting (hq heq).1
      refine ⟨?_, hsent, hmem⟩
      rw [if_pos heq, heq, Dict.getD_set_self, hwait]
    · rw [if_neg heq] at hk ⊢
      rw [Dict.getD_set_of_ne _ _ _ (Ne.symm heq)]
      exact h.waiting hk
  refine h.done ?_
  by_cases heq : n.req = q
  · rw [if_pos heq] at hk
    have hne : k + 1 ≠ e := by rwa [← hcount heq, he, ← hs.2 heq]
    omega
  · rwa [if_neg heq] at hk

theorem expire_tracked {now : Nat} (hnow : now < T) (l : List (ι × Nat)) (hl : p.reqsToSend = l)
    (h : Tracked q e T k admitted p) :
    ∃ p', p.expire now l = .ok p' ∧ Tracked q e T k admitted p' := by
  induction l generalizing p with
  | nil => exact ⟨p, rfl, h⟩
  | cons x rest ih =>
    have hx : x ∈ p.reqsToSend := hl ▸ mem_cons_self
    rw [Producer.expire]
    split
    · exact ⟨p, rfl, h⟩
    have hne : x.1 ≠ q := fun heq => by
      have := h.timer x hx heq
      omega
    have hkeys := h.keys
    rw [hl, map_cons, nodup_cons] at hkeys
    obtain ⟨mid, hmid, hrest, hT⟩ := h.finish (h.known x hx) (hl ▸ sublist_cons_self x rest)
      hkeys.1 (fun heq => absurd heq hne)
    rw [if_neg hne] at hT
    obtain ⟨p', hp', hT'⟩ := ih hrest hT
    exact ⟨p', (seq_ok_iff ..).mpr ⟨mid, hmid, hp'⟩, hT'⟩

theorem startLoadKv_tracked {inBatch notProcessed : List ι} {toSend : List (ι × Nat)}
    (h : Tracked q e T k admitted p) (hs : Serves q P D T p (.start inBatch notProcessed toSend))
    (hin : q ∈ inBatch → k < e) :
    ∃ p', p.startLoadKv inBatch notProcessed toSend = .ok p' ∧
      Tracked q e T k (admitted || decide (q ∈ inBatch)) p' := by
  obtain ⟨hq, htimer, hassert⟩ := hs
  obtain ⟨hkeys, hitems⟩ := OrderedDict.foldl_set_spec (toSend.filter (·.1 ∈
    (p.reqsToProcess ∪ inBatch.toFinset) \ notProcessed.toFinset)) h.keys
  have hmem (x : ι) : x ∈ (p.reqsToProcess ∪ inBatch.toFinset) \ notProcessed.toFinset ↔
      (x ∈ p.reqsToProcess ∨ x ∈ inBatch) ∧ x ∉ notProcessed := by simp
  rw [Producer.startLoadKv]
  simp only [seq_ok_iff, pyAssert_eq_ok]
  refine ⟨_, ⟨(), hassert, rfl⟩, hkeys, fun x hx => ?_, fun x hx hxq => ?_, fun hk => ?_,
    fun hk => ?_⟩
  · refine (hitems x hx).elim (fun hx => (hmem x.1).mpr ?_)
      (fun hx => of_decide_eq_true (mem_filter.mp hx).2)
    exact ⟨.inl (h.known x hx), fun hc => hassert _ hc (mem_map_of_mem hx)⟩
  · exact (hitems x hx).elim (h.timer x · hxq) (fun hx => htimer x (mem_filter.mp hx).1 hxq)
  · obtain ⟨hcount, hsent, hproc⟩ := h.waiting hk
    refine ⟨hcount, hsent, fun hadm => (hmem q).mpr ⟨?_, hq⟩⟩
    exact (by simpa using hadm : admitted = true ∨ q ∈ inBatch).imp_left hproc
  · obtain ⟨hout, hsent⟩ := h.done hk
    refine ⟨fun hc => ?_, hsent⟩
    exact ((hmem q).mp hc).1.elim hout (fun hb => absurd (hin hb) (by omega))

theorem step_tracked (he : e = consumersPerProducer P D) (h : Tracked q e T k admitted p)
    {ev : Event ι} (hs : Serves q P D T p ev) (hin : ev.admits q = true → k < e)
    (hq : (ev.sender? q).isSome → k < e ∧ admitted = true) :
    ∃ p', p.step P ev = .ok p' ∧
      Tracked q e T (k + (ev.sender? q).toList.length) (admitted || ev.admits q) p' := by
  cases ev with
  | start inBatch notProcessed toSend =>
    exact startLoadKv_tracked h hs (fun hb => hin (decide_eq_true hb))
  | notif n =>
    obtain ⟨p', hp', hT⟩ := newNotif_tracked he h hs (fun heq => hq (by simp [Event.sender?, heq]))
    refine ⟨p', hp', ?_⟩
    by_cases heq : n.req = q <;> simpa [Event.sender?, Event.admits, heq] using hT
  | expire now =>
    obtain ⟨p', hp', hT⟩ := expire_tracked hs _ rfl h
    exact ⟨p', hp', by simpa [Event.sender?, Event.admits] using hT⟩

theorem run_tracked (he : e = consumersPerProducer P D) {es : List (Event ι)}
    (h : Tracked q e T k admitted p) (hs : Trace.Meets (Producer.step P) (Serves q P D T) p es)
    (hin : ∀ ev ∈ es, ev.admits q = true → k + (es.filterMap (Event.sender? q)).length < e)
    (hk : k + (es.filterMap (Event.sender? q)).length ≤ e)
    (hadm : admitted = true ∨ es.filterMap (Event.sender? q) = []) :
    ∃ p', Trace.run (Producer.step P) p es = .ok p' ∧
      Tracked q e T (k + (es.filterMap (Event.sender? q)).length)
        (admitted || es.any (Event.admits q)) p' := by
  induction es generalizing p k admitted with
  | nil => exact ⟨p, rfl, by simpa using h⟩
  | cons ev es ih =>
    have hcons : (ev :: es).filterMap (Event.sender? q) =
        (ev.sender? q).toList ++ es.filterMap (Event.sender? q) := by
      cases hev : ev.sender? q <;> simp [hev]
    rw [hcons, length_append] at hk hin
    rw [hcons, append_eq_nil_iff] at hadm
    obtain ⟨mid, hmid, hmidT⟩ := step_tracked he h hs.1
      (fun ha => by have := hin ev mem_cons_self ha; omega)
      (fun hsome => by
        obtain ⟨d, hd⟩ := Option.isSome_iff_exists.mp hsome
        simp only [hd, Option.toList_some, length_singleton] at hk
        exact ⟨by omega, hadm.resolve_right (fun hnil => by simp [hd] at hnil)⟩)
    obtain ⟨p', hp', hT⟩ := ih hmidT (hs.2 mid hmid)
      (fun x hx ha => by have := hin x (mem_cons_of_mem ev hx) ha; omega) (by omega)
      (hadm.imp (fun ha => by simp [ha]) And.right)
    refine ⟨p', (seq_ok_iff ..).mpr ⟨mid, hmid, hp'⟩, ?_⟩
    rwa [hcons, length_append, ← Nat.add_assoc, any_cons, ← Bool.or_assoc]

end tracked

section ranks
variable {P D K r : Nat} {isMla : Bool} {groups : List GroupSpec} {ranks : Nat → List Nat}
  (hranks : ∀ d < D, TransferTopology.notifiedRanks ⟨d, D, isMla, K⟩ P groups = .ok (ranks d))
include hranks

/-- Each rank notifies once, so that all have done it when as many messages have arrived. -/
theorem delivered_length {l : List Nat}
    (hsent : ∀ d, l.count d ≤ if d < D then (ranks d).count r else 0) :
    l.length ≤ ((Finset.range D).filter (fun d => r ∈ ranks d)).card ∧
      (((Finset.range D).filter (fun d => r ∈ ranks d)).card ≤ l.length ↔
        ∀ d < D, r ∈ ranks d → d ∈ l) := by
  have hmem (d : Nat) (hd : d ∈ l) : d < D ∧ r ∈ ranks d := by
    have := (count_pos_iff.mpr hd).trans_le (hsent d)
    split at this
    · exact ⟨‹_›, count_pos_iff.mp this⟩
    · cases this
  have hnodup : l.Nodup := nodup_iff_count_le_one.mpr (fun d => by
    refine (hsent d).trans ?_
    split
    · exact nodup_iff_count_le_one.mp (nodup_notifiedRanks (hranks d ‹_›)) r
    · exact Nat.zero_le 1)
  have hsub : l.toFinset ⊆ (Finset.range D).filter (fun d => r ∈ ranks d) := fun d hd => by
    simpa using hmem d (mem_toFinset.mp hd)
  rw [← toFinset_card_of_nodup hnodup]
  refine ⟨Finset.card_le_card hsub, fun hle d hd hr => ?_, fun hall => Finset.card_le_card ?_⟩
  · rw [← mem_toFinset, Finset.eq_of_subset_of_card_le hsub hle]
    simp [hd, hr]
  · intro d hd
    simp only [Finset.mem_filter, Finset.mem_range] at hd
    exact mem_toFinset.mpr (hall d hd.1 hd.2)

/-- A prefill rank hears from as many decode ranks as it waits for. It returns a request that was
computed in a batch and is not aborted exactly once, when the last of them has notified it. -/
theorem returned_once_read (hD : 0 < D) (hPD : P ∣ D ∨ D ∣ P) (hr : r < P) {q : ι} {T : Nat}
    {es₁ es₂ : List (Event ι)} {ev : Event ι} (hev : ev.admits q = true)
    (hfirst : es₁.filterMap (Event.sender? q) = []) (hlast : ∀ ev ∈ es₂, ev.admits q = false)
    (hs : Trace.Meets (Producer.step P) (Serves q P D T) Producer.init (es₁ ++ ev :: es₂))
    (hsent : ∀ d, (es₂.filterMap (Event.sender? q)).count d ≤
      if d < D then (ranks d).count r else 0) :
    ((Finset.range D).filter (fun d => r ∈ ranks d)).card = consumersPerProducer P D ∧
    ∃ p, Trace.run (Producer.step P) Producer.init (es₁ ++ ev :: es₂) = .ok p ∧
      p.doneSending.count q =
        if ∀ d < D, r ∈ ranks d → d ∈ es₂.filterMap (Event.sender? q) then 1 else 0 := by
  have hcard := card_notifying hD hPD hr hranks
  obtain ⟨hlen, hall⟩ := delivered_length hranks hsent
  rw [hcard] at hlen hall
  have hnone : (es₁ ++ [ev]).filterMap (Event.sender? q) = [] := by
    cases ev with
    | start inBatch notProcessed toSend => simpa [Event.sender?] using hfirst
    | notif n => cases hev
    | expire now => cases hev
  have hpos : 0 < consumersPerProducer P D := by
    unfold consumersPerProducer
    split
    · exact Nat.div_pos (by omega) (by omega)
    · exact one_pos
  have hinit : Tracked q (consumersPerProducer P D) T 0 false (Producer.init : Producer ι) :=
    ⟨nodup_nil, nofun, nofun, fun _ => ⟨rfl, rfl, nofun⟩, fun hle => by omega⟩
  rw [append_cons] at hs ⊢
  obtain ⟨hs₁, hs₂⟩ := Trace.meets_append hs
  obtain ⟨p₁, hrun₁, hT₁⟩ := run_tracked rfl hinit hs₁ (by simpa [hnone] using fun _ _ _ => hpos)
    (by simp [hnone]) (.inr hnone)
  obtain ⟨p, hrun, hT⟩ := run_tracked rfl hT₁ (hs₂ p₁ hrun₁)
    (fun x hx ha => absurd ha (by simp [hlast x hx])) (by simpa [hnone] using hlen)
    (.inl (by simp [hev]))
  refine ⟨hcard, p, ?_, ?_⟩
  · rw [Trace.run_append, seq_ok_iff]
    exact ⟨p₁, hrun₁, hrun⟩
  simp only [hnone, length_nil, Nat.zero_add] at hT
  split
  · exact (hT.done (hall.mpr ‹_›)).2
  · exact (hT.waiting (Nat.lt_of_not_le (fun hle => ‹¬_› (hall.mp hle)))).2.1

end ranks

theorem returned_once_read_two :
    let es : List (Event Nat) := [.notif ⟨1, 7, 2⟩, .expire 3, .notif ⟨0, 7, 2⟩]
    ∃ p, Trace.run (Producer.step 1) Producer.init ([] ++ .start [7] [] [(7, 9)] :: es) = .ok p ∧
      p.doneSending.count 7 = 1 := by
  intro es
  have hranks : ∀ d < 2, notifiedRanks ⟨d, 2, false, 2⟩ 1 [.attention] =
      .ok ((fun _ => [0]) d) := by decide
  have hs : Trace.Meets (Producer.step 1) (Serves 7 1 2 9) Producer.init
      ([] ++ .start [7] [] [(7, 9)] :: es) :=
    ⟨⟨by decide, by decide, by decide⟩, fun _ _ => ⟨⟨.inr ⟨2, rfl⟩, fun _ => rfl⟩, fun _ _ =>
      ⟨(by decide : 3 < 9), fun _ _ => ⟨⟨.inr ⟨2, rfl⟩, fun _ => rfl⟩, fun _ _ => trivial⟩⟩⟩⟩
  have hsent (d : Nat) : (es.filterMap (Event.sender? 7)).count d ≤
      if d < 2 then [0].count 0 else 0 := by
    change [1, 0].count d ≤ _
    match d with
    | 0 | 1 => decide
    | d + 2 => simp
  obtain ⟨p, hrun, hcount⟩ := (returned_once_read hranks (by decide) (.inl ⟨2, rfl⟩) (by decide) rfl
    rfl (by simp [es, Event.admits]) hs hsent).2
  exact ⟨p, hrun, hcount⟩

end TailBlend.Nixl
