import TailBlend.Lib.Ragged
import TailBlend.NixlMapping
import Mathlib.Data.List.Dedup

/-! The planned reads against the heads that the ranks of the two engines hold. -/
namespace TailBlend.Nixl
open TransferTopology List

def firstHead (K n r : Nat) : Nat := r * K / n
def numHeads (K n : Nat) : Nat := max 1 (K / n)

section heads
variable {K n : Nat}

theorem numHeads_of_dvd {c : Nat} (hc : 0 < c) (hn : 0 < n) : numHeads (n * c) n = c := by
  unfold numHeads
  rw [Nat.mul_div_cancel_left _ hn]
  omega

theorem numHeads_of_le {w : Nat} (hw : 0 < w) : numHeads K (K * w) = 1 := by
  have hle : K / (K * w) ≤ 1 := Nat.div_le_of_le_mul (by nlinarith)
  unfold numHeads
  omega

theorem firstHead_of_dvd (c r : Nat) (hn : 0 < n) : firstHead (n * c) n r = r * c := by
  unfold firstHead
  rw [Nat.mul_left_comm, Nat.mul_div_cancel_left _ hn]

theorem firstHead_of_le (w r : Nat) (hK : 0 < K) : firstHead K (K * w) r = r / w := by
  unfold firstHead
  rw [Nat.mul_comm r, Nat.mul_div_mul_left _ _ hK]

end heads

variable {d K P e : Nat}

/-- The heads of a rank start in the block of the rank that it reads from. -/
theorem offset_of_more (hK : 0 < K) (hP : 0 < P) (he : 0 < e) (d : Nat) (hKP : K ∣ P ∨ P ∣ K)
    (hKD : K ∣ P * e) (hlt : K < P * e) :
    ∃ f, firstHead K P (d / e) + f = firstHead K (P * e) d ∧ f + 1 ≤ numHeads K P := by
  obtain ⟨u, hu⟩ := hKD
  rw [hu, firstHead_of_le _ _ hK]
  rcases hKP with ⟨w, rfl⟩ | ⟨v, rfl⟩
  · obtain rfl : u = w * e := by
      rw [Nat.mul_assoc] at hu
      exact (Nat.eq_of_mul_eq_mul_left hK hu).symm
    refine ⟨0, ?_, by simp [numHeads]⟩
    rw [firstHead_of_le _ _ hK, Nat.add_zero, Nat.div_div_eq_div_mul, Nat.mul_comm e]
  obtain rfl : e = v * u := by
    rw [Nat.mul_assoc] at hu
    exact Nat.eq_of_mul_eq_mul_left hP hu
  have hv : 0 < v := Nat.pos_of_mul_pos_left hK
  refine ⟨d / u % v, ?_, ?_⟩
  · rw [firstHead_of_dvd _ _ hP, Nat.mul_comm v u, ← Nat.div_div_eq_div_mul, Nat.mul_comm]
    exact Nat.div_add_mod _ _
  · rw [numHeads_of_dvd hv hP]
    exact Nat.mod_lt _ hv

theorem offset_of_fewer (hP : 0 < P) (he : 0 < e) (d c : Nat) (hc : 0 < c) :
    firstHead (P * e * c) P (d / e) + d % e * c = firstHead (P * e * c) (P * e) d ∧
      d % e * c + c ≤ numHeads (P * e * c) P := by
  rw [firstHead_of_dvd c d (Nat.mul_pos hP he), Nat.mul_assoc P, firstHead_of_dvd _ _ hP,
    numHeads_of_dvd (Nat.mul_pos he hc) hP, ← Nat.mul_assoc, ← Nat.add_mul, Nat.mul_comm (d / e),
    Nat.div_add_mod]
  exact ⟨rfl, by nlinarith [Nat.mod_lt d he]⟩

/-- The ranks that a rank of a smaller engine covers, in runs of `q` with the same heads. -/
theorem heads_of_less {D a : Nat} (hK : 0 < K) (hD : 0 < D) (ha : 0 < a) (d : Nat)
    (hKP : K ∣ D * a ∨ D * a ∣ K) (hKD : K ∣ D ∨ D ∣ K) :
    ∃ n q m, a = n * q ∧ 0 < n ∧ 0 < q ∧ 0 < m ∧ numHeads K D = n * m ∧
      m ≤ numHeads K (D * a) ∧
      ∀ i < a, firstHead K (D * a) (d * a + i) = firstHead K D d + i / q * m := by
  by_cases hmore : D * a ∣ K
  · obtain ⟨c, rfl⟩ := hmore
    have hc : 0 < c := Nat.pos_of_mul_pos_left hK
    refine ⟨a, 1, c, by simp, ha, one_pos, hc, ?_, ?_, fun i hi => ?_⟩
    · rw [Nat.mul_assoc, numHeads_of_dvd (Nat.mul_pos ha hc) hD]
    · rw [numHeads_of_dvd hc (Nat.mul_pos hD ha)]
    · rw [firstHead_of_dvd _ _ (Nat.mul_pos hD ha), Nat.mul_assoc, firstHead_of_dvd _ _ hD]
      simp [Nat.add_mul, Nat.mul_assoc]
  have hPdvd := hKP.resolve_right hmore
  rcases hKD with ⟨u, rfl⟩ | ⟨c, rfl⟩
  · have hu : 0 < u := Nat.pos_of_mul_pos_left hD
    refine ⟨1, a, 1, by simp, one_pos, ha, one_pos, ?_, le_max_left _ _, fun i hi => ?_⟩
    · rw [numHeads_of_le hu]
    · rw [Nat.mul_assoc, firstHead_of_le _ _ hK, firstHead_of_le _ _ hK, Nat.mul_comm u a,
        ← Nat.div_div_eq_div_mul, Nat.mul_comm d a, Nat.mul_add_div ha]
      simp [Nat.div_eq_of_lt hi]
  obtain ⟨w, hw⟩ := hPdvd
  obtain rfl : a = c * w := by
    rw [Nat.mul_assoc] at hw
    exact Nat.eq_of_mul_eq_mul_left hD hw
  have hc : 0 < c := Nat.pos_of_mul_pos_right ha
  have hwpos : 0 < w := Nat.pos_of_mul_pos_left ha
  refine ⟨c, w, 1, rfl, hc, hwpos, one_pos, ?_, le_max_left _ _, fun i hi => ?_⟩
  · rw [numHeads_of_dvd hc hD, Nat.mul_one]
  · rw [← Nat.mul_assoc, firstHead_of_le _ _ hK, firstHead_of_dvd _ _ hD, ← Nat.mul_assoc,
      Nat.mul_comm (d * c) w, Nat.mul_add_div hwpos, Nat.mul_one]

theorem uniqueIdx_runs {n q m : Nat} (hq : 0 < q) (hm : 0 < m) {heads : Nat → Nat} (b : Nat)
    (h : ∀ i < n * q, heads i = b + i / q * m) :
    uniqueIdx ((range (n * q)).map heads) = (range n).map (· * q) := by
  refine Pairwise.eq_of_mem_iff (pairwise_lt_range.filter _)
    (pairwise_lt_range.map (· * q) (fun _ _ hlt => Nat.mul_lt_mul_of_pos_right hlt hq))
    (fun i => ?_)
  have hget (j : Nat) (hj : j < n * q) : ((range (n * q)).map heads)[j]? = some (heads j) := by
    simp [hj]
  simp only [uniqueIdx, mem_filter, mem_map, mem_range, length_map, length_range, decide_eq_true_eq]
  constructor
  · rintro ⟨hi, hfirst⟩
    refine ⟨i / q, Nat.div_lt_of_lt_mul (by rwa [Nat.mul_comm]), ?_⟩
    by_contra hne
    have hlt : i / q * q < i := lt_of_le_of_ne (Nat.div_mul_le_self i q) hne
    refine hfirst _ hlt ?_
    rw [hget _ (hlt.trans hi), hget _ hi, h _ (hlt.trans hi), h _ hi, Nat.mul_div_cancel _ hq]
  rintro ⟨k, hk, rfl⟩
  have hi : k * q < n * q := Nat.mul_lt_mul_of_pos_right hk hq
  refine ⟨hi, fun j hj heq => ?_⟩
  rw [hget _ (hj.trans hi), hget _ hi, h _ (hj.trans hi), h _ hi, Nat.mul_div_cancel _ hq] at heq
  have hjk : j / q < k := Nat.div_lt_of_lt_mul (by rwa [Nat.mul_comm])
  simp at heq
  omega

/-- A rank of an engine without latent attention. -/
abbrev topo (d D K : Nat) : TransferTopology := ⟨d, D, false, K⟩

/-- The reads that a rank plans, counted in heads. -/
structure HeadPlan (d D K P : Nat) where
  reads : Nat
  heads : Nat
  offset : Nat
  rank : Nat → Nat
  reads_pos : 0 < reads
  heads_pos : 0 < heads
  numHeads_eq : numHeads K D = reads * heads
  attnRanks_eq : (topo d D K).attnRanks P = (range reads).map rank
  rankOffsetFactor_eq : (topo d D K).rankOffsetFactor P = offset
  rank_lt : ∀ k < reads, rank k < P
  rank_mono : ∀ j k, j < k → k < reads → rank j < rank k
  first_eq : ∀ k < reads, firstHead K P (rank k) + offset * (reads * heads) =
    firstHead K D d + k * heads
  fits : offset * (reads * heads) + heads ≤ numHeads K P
  single : P ≤ D → reads = 1

section plan
variable {D : Nat} (hK : 0 < K) (hrank : d < D) (hKP : K ∣ P ∨ P ∣ K) (hKD : K ∣ D ∨ D ∣ K)
include hK hrank hKP hKD

theorem exists_headPlan_of_lt {a : Nat} (hP : P = D * a) (hlt : D < P) :
    Nonempty (HeadPlan d D K P) := by
  subst hP
  have hD : 0 < D := by omega
  have ha : 0 < a := Nat.pos_of_ne_zero (by rintro rfl; omega)
  obtain ⟨n, q, m, rfl, hn, hq, hm, hheads, hfit, hfirst⟩ := heads_of_less hK hD ha d hKP hKD
  have hmul (k : Nat) (hk : k < n) : k * q < n * q := Nat.mul_lt_mul_of_pos_right hk hq
  refine ⟨⟨n, m, 0, fun k => d * (n * q) + k * q, hn, hm, hheads, ?_, ?_, fun k hk => ?_,
    fun j k hjk _ => ?_, fun k hk => ?_, ?_, fun hle => ?_⟩⟩
  · have hruns := uniqueIdx_runs hq hm _ hfirst
    simp only [attnRanks, Nat.mul_div_cancel_left _ hD]
    rw [if_neg (by simpa using hlt)]
    simp only [firstHead] at hruns
    simp [hruns]
  · simp [rankOffsetFactor, hlt.le]
  · have hle : (d + 1) * (n * q) ≤ D * (n * q) := Nat.mul_le_mul_right _ hrank
    have := hmul k hk
    rw [Nat.add_mul] at hle
    omega
  · exact Nat.add_lt_add_left (Nat.mul_lt_mul_of_pos_right hjk hq) _
  · rw [hfirst _ (hmul k hk), Nat.mul_div_cancel _ hq, Nat.zero_mul, Nat.add_zero]
  · rwa [Nat.zero_mul, Nat.zero_add]
  · omega

theorem exists_headPlan_of_ge {e : Nat} (hD : D = P * e) (hPpos : 0 < P) :
    Nonempty (HeadPlan d D K P) := by
  have he : 0 < e := Nat.pos_of_ne_zero (by rintro rfl; omega)
  have hge : P ≤ D := hD ▸ Nat.le_mul_of_pos_right P he
  have hattn : (topo d D K).attnRanks P = [d / e] := by
    rw [attnRanks, if_pos (.inr hge), hD, Nat.mul_comm, Nat.mul_div_mul_left _ _ hPpos]
  suffices hfit : ∃ f, (topo d D K).rankOffsetFactor P = (f : Nat) ∧
      firstHead K P (d / e) + f * numHeads K D = firstHead K D d ∧
      f * numHeads K D + numHeads K D ≤ numHeads K P by
    obtain ⟨f, hoff, hfirst, hle⟩ := hfit
    refine ⟨⟨1, numHeads K D, f, fun _ => d / e, one_pos,
      lt_max_of_lt_left one_pos, (Nat.one_mul _).symm, hattn, hoff, fun _ _ => ?_,
      fun j k hjk hk => by omega, fun k hk => ?_, by rwa [Nat.one_mul], fun _ => rfl⟩⟩
    · exact Nat.div_lt_of_lt_mul (by rw [Nat.mul_comm]; omega)
    · rw [Nat.one_mul, hfirst, Nat.lt_one_iff.mp hk, Nat.zero_mul, Nat.add_zero]
  rcases Nat.eq_or_lt_of_le hge with heq | hlt
  · obtain rfl : e = 1 := by
      exact (Nat.eq_of_mul_eq_mul_left hPpos (by omega)).symm
    refine ⟨0, ?_, ?_, ?_⟩
    · simp [rankOffsetFactor, heq.ge]
    · rw [Nat.zero_mul, Nat.add_zero, Nat.div_one, heq]
    · rw [Nat.zero_mul, Nat.zero_add, ← heq]
  by_cases hmore : D > K
  · have hdvd := hKD.resolve_right (fun hd => absurd (Nat.le_of_dvd hK hd) (by omega))
    obtain ⟨f, hf, hfit⟩ := offset_of_more hK hPpos he d hKP (hD ▸ hdvd) (by omega)
    obtain ⟨w, hw⟩ := hdvd
    have hone : numHeads K D = 1 := by
      rw [hw, numHeads_of_le (Nat.pos_of_ne_zero (by rintro rfl; omega))]
    refine ⟨f, ?_, by rw [hone, Nat.mul_one, hf, hD], by rwa [hone, Nat.mul_one]⟩
    rw [rankOffsetFactor, if_neg (by simp [hlt]), hattn]
    rw [← hD] at hf
    simp only [firstHead] at hf
    simp only [headD_cons]
    omega
  have hdvd : D ∣ K := by
    refine hKD.elim (fun hd => ?_) id
    have := Nat.le_of_dvd (by omega) hd
    rw [show D = K by omega]
  obtain ⟨c, hc⟩ := hdvd
  have hcpos : 0 < c := Nat.pos_of_ne_zero (by rintro rfl; omega)
  have hC : numHeads K D = c := by
    rw [hc, numHeads_of_dvd hcpos (by omega)]
  refine ⟨d % e, ?_, ?_⟩
  · rw [rankOffsetFactor, if_neg (by simp [hlt]), if_neg hmore, hD, Nat.mul_div_cancel_left _ hPpos]
  · have := offset_of_fewer hPpos he d c hcpos
    rwa [hC, hc, hD]

theorem exists_headPlan (hPpos : 0 < P) (hPD : P ∣ D ∨ D ∣ P) : Nonempty (HeadPlan d D K P) := by
  rcases hPD with ⟨e, he⟩ | ⟨a, ha⟩
  · exact exists_headPlan_of_ge hK hrank hKP hKD he hPpos
  rcases Nat.lt_or_ge D P with hlt | hge
  · exact exists_headPlan_of_lt hK hrank hKP hKD ha hlt
  have heq : D = P * 1 := by
    have := Nat.le_of_dvd hPpos ⟨a, ha⟩
    omega
  exact exists_headPlan_of_ge hK hrank hKP hKD heq hPpos

end plan

/-! The slots of the plan, and its descriptors. -/

theorem sourceRanks_eq (t : TransferTopology) (P n : Nat) :
    (t.computeTpMapping P (replicate (n + 1) .attention)).sourceRanks
      (replicate (n + 1) .attention) .attention = t.attnRanks P := by
  simp [TPMapping.sourceRanks, computeTpMapping, replicate_succ]

namespace HeadPlan
variable {D : Nat} (plan : HeadPlan d D K P)
include plan

theorem attnRanks_pairwise : ((topo d D K).attnRanks P).Pairwise (· < ·) := by
  rw [plan.attnRanks_eq, pairwise_map]
  refine pairwise_iff_getElem.mpr (fun i j hi hj hij => ?_)
  rw [getElem_range, getElem_range]
  exact plan.rank_mono i j hij (by simpa using hj)

theorem allSourceRanks_eq (n : Nat) :
    ((topo d D K).computeTpMapping P (replicate n .attention)).allSourceRanks =
      (topo d D K).attnRanks P := by
  have hssm : (topo d D K).ssmRanks P (replicate n .attention) = [] := if_neg (by simp)
  have hlt := plan.attnRanks_pairwise
  simp only [computeTpMapping, hssm, append_nil]
  rw [Nodup.dedup (hlt.imp (fun h => h.ne))]
  exact (hlt.imp (fun h => h.le)).insertionSort_eq

theorem first_injective {j k : Nat} (hj : j < plan.reads) (hk : k < plan.reads)
    (h : firstHead K P (plan.rank j) = firstHead K P (plan.rank k)) : j = k := by
  have h1 := plan.first_eq j hj
  have h2 := plan.first_eq k hk
  exact Nat.eq_of_mul_eq_mul_right plan.heads_pos (by omega)

theorem headToSlot_rank {k : Nat} (hk : k < plan.reads) :
    ((topo d D K).headToSlot P).get? (firstHead K P (plan.rank k)) = some k := by
  have hzip : ((topo d D K).attnRanks P).zipIdx.map (fun e => (e.1 * K / P, e.2)) =
      (range plan.reads).map (fun k => (firstHead K P (plan.rank k), k)) := by
    rw [plan.attnRanks_eq]
    refine ext_getElem (by simp) (fun i hi _ => ?_)
    simp [firstHead]
  rw [headToSlot, hzip]
  refine Dict.get?_setAll _ ?_ (mem_map.mpr ⟨k, mem_range.mpr hk, rfl⟩)
  rw [map_map]
  refine Nodup.map_on (fun i hi j hj h => ?_) nodup_range
  exact plan.first_injective (mem_range.mp hi) (mem_range.mp hj) h

theorem slot_rank (n : Nat) {k : Nat} (hk : k < plan.reads) :
    ((topo d D K).computeTpMapping P (replicate n .attention)).rankToAttentionSlot.getD
      (plan.rank k) 0 = k := by
  have hranks := plan.allSourceRanks_eq n
  have hmem : plan.rank k ∈ (topo d D K).attnRanks P := by
    rw [plan.attnRanks_eq]
    exact mem_map.mpr ⟨k, mem_range.mpr hk, rfl⟩
  have hnodup : ((topo d D K).attnRanks P).Nodup := plan.attnRanks_pairwise.imp (fun h => h.ne)
  have hslot := plan.headToSlot_rank hk
  simp only [computeTpMapping] at hranks ⊢
  have hget : (Dict.empty.setAll (((topo d D K).attnRanks P).map fun r =>
      (r, ((topo d D K).headToSlot P).getD (r * K / P) 0))).get? (plan.rank k) =
      some (((topo d D K).headToSlot P).getD (plan.rank k * K / P) 0) := by
    refine Dict.get?_setAll _ ?_ (mem_map.mpr ⟨_, hmem, rfl⟩)
    simpa [Function.comp_def] using hnodup
  rw [hranks, Dict.getD, hget, Option.getD_some, Dict.getD]
  rw [firstHead] at hslot
  rw [hslot, Option.getD_some]

end HeadPlan

/-- How many regions a registered tensor is split into. -/
def parts (isKvLayoutBlocksFirst : Bool) : Nat := if isKvLayoutBlocksFirst then 2 else 1

theorem lt_parts {bf : Bool} {s : Nat} (hs : s < parts bf) : s = 0 ∨ s = 1 ∧ bf = true := by
  cases bf with
  | false => exact .inl (by simpa [parts] using hs)
  | true =>
    have : s < 2 := hs
    exact (Nat.le_one_iff_eq_zero_or_eq_one.mp (by omega)).imp_right (⟨·, rfl⟩)

/-- Region `s` of layer `i` in a list of descriptors by layer, region and block. -/
theorem getElem?_regions {β : Type} {l : List β} {i n b s : Nat} {x : β} {bf : Bool}
    (hx : l[i]? = some x) (hb : b < n) (hs : s < parts bf) (k v : β → Int)
    (stride klen vlen : β → Nat) :
    (l.flatMap fun e => blockDescs n (k e) (stride e) (klen e) ++
      if bf then blockDescs n (v e) (stride e) (vlen e) else [])[(parts bf * i + s) * n + b]? =
    some ((if s = 0 then k x else v x) + (b * stride x : Nat),
      if s = 0 then klen x else vlen x) := by
  have hlen (e : β) : (blockDescs n (k e) (stride e) (klen e) ++
      if bf then blockDescs n (v e) (stride e) (vlen e) else []).length = parts bf * n := by
    cases bf <;> simp [blockDescs, parts, two_mul]
  have hi : i ≤ l.length := (Ragged.lt_length_of_getElem? hx).le
  have hread := Ragged.getElem?_flatMap (fun e => blockDescs n (k e) (stride e) (klen e) ++
    if bf then blockDescs n (v e) (stride e) (vlen e) else []) (j := s * n + b) hx
    (by rw [hlen]; nlinarith)
  simp only [hlen, Ragged.start, map_const', sum_replicate, length_take,
    min_eq_left hi, nsmul_eq_mul, Nat.cast_id] at hread
  rw [show (parts bf * i + s) * n + b = i * (parts bf * n) + (s * n + b) by ring, hread]
  obtain rfl | ⟨rfl, rfl⟩ := lt_parts hs
  · rw [Nat.zero_mul, getElem?_append_left (by simpa [blockDescs])]
    simp [blockDescs, hb]
  · simp [blockDescs, hb]

/-- The caches of a rank of an engine of `n` ranks: each region of a block holds the heads that the
rank owns, `headBytes` long in each layer. -/
def cachesOf (K n : Nat) (headBytes : List Nat) (bf : Bool) (numBlocks : Nat) (bases : List Int) :
    Caches :=
  ⟨numBlocks, bases, headBytes.map (fun hb => parts bf * (numHeads K n * hb)), bf⟩

/-- The address of the `i`th head that the rank owns, in region `s` of a block. -/
def headAddr (K n : Nat) (bf : Bool) (hb : Nat) (base : Int) (block s i : Nat) : Int :=
  base + (block * (parts bf * (numHeads K n * hb)) + s * (numHeads K n * hb) + i * hb : Nat)

def Desc.covers (d : Desc) (addr : Int) : Prop := d.1 ≤ addr ∧ addr < d.1 + d.2

section caches
variable {K n l hb numBlocks b s : Nat} {headBytes : List Nat} {bf : Bool} {bases : List Int}
  {base : Int} (hhb : headBytes[l]? = some hb) (hbase : bases[l]? = some base) (hb' : b < numBlocks)
  (hs : s < parts bf)

theorem kvBlockLen_cachesOf (x : Nat) :
    (cachesOf K n headBytes bf numBlocks bases).kvBlockLen (parts bf * x) = x := by
  cases bf <;> simp [Caches.kvBlockLen, cachesOf, parts]

theorem shift_eq (hs : s < parts bf) {y y' : Nat} (hy : bf = true → y' = y) (x : Int) :
    (if s = 0 then x else x + y') = x + (s * y : Nat) := by
  obtain rfl | ⟨rfl, hbf⟩ := lt_parts hs
  · simp
  · simp [hy hbf]

include hhb hbase hb' hs

theorem getElem?_buildFaLocal :
    (buildFaLocal (cachesOf K n headBytes bf numBlocks bases) 1)[
      (parts bf * l + s) * numBlocks + b]? =
      some (headAddr K n bf hb base b s 0, numHeads K n * hb) := by
  have hx : (bases.zip (headBytes.map (fun hb => parts bf * (numHeads K n * hb))))[l]? =
      some (base, parts bf * (numHeads K n * hb)) := by
    simp [getElem?_zip_eq_some, hbase, hhb]
  simp only [buildFaLocal, Nat.div_one, Nat.mul_one]
  refine (getElem?_regions hx hb' hs ..).trans ?_
  rw [kvBlockLen_cachesOf, shift_eq hs (fun _ => rfl), ite_self, headAddr]
  push_cast
  congr 2
  ring

/-- What a rank reads of a block of another engine. -/
theorem getElem?_buildFaRemote {D nL : Nat} {basesL : List Int} {plan : TPMapping}
    {groups : List GroupSpec} {offset reads heads : Nat} (hreads : 0 < reads)
    (hoff : plan.rankOffsetFactor = offset)
    (hlen : (plan.sourceRanks groups .attention).length = reads)
    (hheads : numHeads K D = reads * heads) :
    (buildFaRemote plan groups (cachesOf K D headBytes bf nL basesL)
      (cachesOf K n headBytes bf numBlocks bases) 1)[(parts bf * l + s) * numBlocks + b]? =
      some (headAddr K n bf hb base b s (offset * (reads * heads)), heads * hb) := by
  have hx : ((bases.zip (headBytes.map (fun hb => parts bf * (numHeads K n * hb)))).zip
      (headBytes.map (fun hb => parts bf * (numHeads K D * hb))))[l]? =
      some ((base, parts bf * (numHeads K n * hb)), parts bf * (numHeads K D * hb)) := by
    simp [getElem?_zip_eq_some, hbase, hhb]
  have hhalf (hbf : bf = true) : parts bf * (numHeads K n * hb) / 2 = numHeads K n * hb := by
    subst hbf
    simp [parts]
  simp only [buildFaRemote, Nat.div_one, hlen, hoff, lt_irrefl, if_false]
  refine (getElem?_regions hx hb' hs ..).trans ?_
  rw [kvBlockLen_cachesOf, shift_eq hs hhalf, ite_self, headAddr, hheads, Nat.mul_assoc,
    Nat.mul_div_cancel_left _ hreads]
  push_cast
  congr 2
  ring

end caches

/-- A byte of head `i` lies in the chunk of the heads around it. -/
theorem mem_chunk_iff {m hb y : Nat} (hm : 0 < m) (hy : y < hb) (k i : Nat) :
    k * m * hb ≤ i * hb + y ∧ i * hb + y < k * m * hb + m * hb ↔ k = i / m := by
  constructor
  · rintro ⟨hle, hlt⟩
    refine (Nat.div_eq_of_lt_le ?_ ?_).symm
    · by_contra hgt
      have := Nat.mul_le_mul_right hb (show i + 1 ≤ k * m by omega)
      rw [Nat.add_mul] at this
      omega
    by_contra hge
    have := Nat.mul_le_mul_right hb (show (k + 1) * m ≤ i by omega)
    rw [Nat.add_mul, Nat.add_mul, Nat.one_mul] at this
    omega
  · rintro rfl
    have h1 := Nat.mul_le_mul_right hb (Nat.div_mul_le_self i m)
    have h2 := Nat.mul_le_mul_right hb (Nat.lt_div_mul_add hm : i < i / m * m + m)
    rw [Nat.succ_eq_add_one, Nat.add_mul, Nat.add_mul] at h2
    omega

section reads
variable {D nL nR g l s b b' hb : Nat} {headBytes : List Nat} {bf : Bool} {bases : List Int}
  {base : Int} {remoteBases : Nat → List Int} {remoteBase : Nat → Int}

theorem headAddr_add (K n : Nat) (bf : Bool) (hb : Nat) (base : Int) (b s i j : Nat) :
    headAddr K n bf hb base b s i + (j * hb : Nat) = headAddr K n bf hb base b s (i + j) := by
  unfold headAddr
  push_cast
  ring

theorem HeadPlan.zipIdx_eq (plan : HeadPlan d D K P) (g : Nat) :
    ((topo d D K).computeTpMapping P (replicate g .attention)).allSourceRanks.zipIdx =
      (range plan.reads).map (fun k => (plan.rank k, k)) := by
  rw [plan.allSourceRanks_eq, plan.attnRanks_eq]
  exact ext_getElem (by simp) (fun i hi _ => by simp)

/-- The part of a block that the `k`th read writes. -/
theorem HeadPlan.getElem?_handle (plan : HeadPlan d D K P) {src : List Desc} {i k : Nat}
    {addr : Int} (hsrc : src[i]? = some (addr, numHeads K D * hb)) (hk : k < plan.reads) :
    (localXferSideHandle (topo d D K) P (replicate (g + 1) .attention) src k).bind (·[i]?) =
      some (addr + (k * (plan.heads * hb) : Nat), plan.heads * hb) := by
  rw [localXferSideHandle]
  by_cases hle : P ≤ D
  · have hone := plan.single hle
    obtain rfl : k = 0 := by omega
    rw [if_neg (fun h => h.1.not_ge hle), Option.bind_some, hsrc, plan.numHeads_eq, hone]
    simp
  rw [if_pos ⟨Nat.lt_of_not_le hle, by simp⟩]
  have hlen : ((topo d D K).attnRanks P).length = plan.reads := by simp [plan.attnRanks_eq]
  obtain ⟨hi, hget⟩ := List.getElem?_eq_some_iff.mp hsrc
  have hchunk : numHeads K D * hb / plan.reads = plan.heads * hb := by
    rw [plan.numHeads_eq, Nat.mul_assoc, Nat.mul_div_cancel_left _ plan.reads_pos]
  simp only [buildLocalSplitsFromPlan, plan.zipIdx_eq, sourceRanks_eq, hlen]
  simp only [getElem?_map, getElem?_range hk, Option.map_some, Option.bind_some,
    getElem?_zipIdx, hsrc, Nat.zero_add, if_pos hi, plan.slot_rank (g + 1) hk, hchunk]

variable (hhb : headBytes[l]? = some hb) (hbase : bases[l]? = some base)
  (hremote : ∀ r, (remoteBases r)[l]? = some (remoteBase r)) (hbL : b < nL) (hbR : b' < nR)
include hhb hbase hremote hbL hbR

theorem plannedReads_eq (hs : s < parts bf) (plan : HeadPlan d D K P) :
    plannedReads (topo d D K) P (replicate (g + 1) .attention)
      (cachesOf K D headBytes bf nL bases)
      (fun r => cachesOf K P headBytes bf nR (remoteBases r)) (parts bf * l + s) b b' =
    (range plan.reads).map fun k => ⟨plan.rank k,
      (headAddr K D bf hb base b s (k * plan.heads), plan.heads * hb),
      (headAddr K P bf hb (remoteBase (plan.rank k)) b' s
        (plan.offset * (plan.reads * plan.heads)), plan.heads * hb)⟩ := by
  have hlen : (((topo d D K).computeTpMapping P (replicate (g + 1) .attention)).sourceRanks
      (replicate (g + 1) .attention) .attention).length = plan.reads := by
    rw [sourceRanks_eq, plan.attnRanks_eq, length_map, length_range]
  have hdst := @getElem?_buildFaLocal K D _ _ _ _ _ _ _ _ _ hhb hbase hbL hs
  rw [← filterMap_eq_map]
  simp only [plannedReads, plan.zipIdx_eq, filterMap_map]
  refine filterMap_congr (fun k hk => ?_)
  have hk := mem_range.mp hk
  have hsrc := @getElem?_buildFaRemote K P _ _ _ _ _ _ _ _ _ hhb
    (hremote (plan.rank k)) hbR hs D nL bases _ _ _ _ _ plan.reads_pos
    plan.rankOffsetFactor_eq hlen plan.numHeads_eq
  have hhandle := plan.getElem?_handle (g := g) hdst hk
  rw [← Nat.mul_assoc, headAddr_add, Nat.zero_add] at hhandle
  obtain ⟨handle, hhandle, hdst⟩ := Option.bind_eq_some_iff.mp hhandle
  refine Option.bind_eq_some_iff.mpr ⟨handle, hhandle, ?_⟩
  refine Option.bind_eq_some_iff.mpr ⟨_, hdst, ?_⟩
  exact Option.bind_eq_some_iff.mpr ⟨_, hsrc, rfl⟩

/-- The reads that a rank plans write every byte of the heads it owns once and nothing else, from
the head's place in a block of a rank that owns it. -/
theorem plannedReads_exact (hs : s < parts bf) (hK : 0 < K) (hP : 0 < P) (hrank : d < D)
    (hPD : P ∣ D ∨ D ∣ P) (hKP : K ∣ P ∨ P ∣ K) (hKD : K ∣ D ∨ D ∣ K) :
    let owned := numHeads K D
    let addr := headAddr K D bf hb base b s
    let reads := plannedReads (topo d D K) P (replicate (g + 1) .attention)
      (cachesOf K D headBytes bf nL bases)
      (fun r => cachesOf K P headBytes bf nR (remoteBases r)) (parts bf * l + s) b b'
    (∀ e ∈ reads, e.dst.2 = e.src.2 ∧ addr 0 ≤ e.dst.1 ∧ e.dst.1 + e.dst.2 ≤ addr owned) ∧
    ∀ i < owned, ∀ y < hb, (∃! k : Nat, ∃ e, reads[k]? = some e ∧ e.dst.covers (addr i + y)) ∧
      ∀ e ∈ reads, e.dst.covers (addr i + y) → e.remoteRank < P ∧
        ∃ j < numHeads K P, firstHead K P e.remoteRank + j = firstHead K D d + i ∧
          e.src.1 + (addr i + y - e.dst.1) =
            headAddr K P bf hb (remoteBase e.remoteRank) b' s j + y := by
  intro owned addr reads
  obtain ⟨plan⟩ := exists_headPlan hK hrank hKP hKD hP hPD
  have hreads : reads = _ := plannedReads_eq hhb hbase hremote hbL hbR hs plan
  have howned : owned = plan.reads * plan.heads := plan.numHeads_eq
  have haddr (i : Nat) : addr i = addr 0 + (i * hb : Nat) := by
    rw [headAddr_add, Nat.zero_add]
  have hcovers (k i y : Nat) (hy : y < hb) :
      Desc.covers (addr (k * plan.heads), plan.heads * hb) (addr i + y) ↔ k = i / plan.heads := by
    rw [← mem_chunk_iff plan.heads_pos hy, Desc.covers, haddr i, haddr (k * plan.heads)]
    omega
  simp only [hreads, mem_map, mem_range]
  refine ⟨?_, fun i hi y hy => ⟨⟨i / plan.heads, ?_, ?_⟩, ?_⟩⟩
  · rintro e ⟨k, hk, rfl⟩
    have hle : (k + 1) * plan.heads * hb ≤ owned * hb := by
      rw [howned]
      exact Nat.mul_le_mul_right hb (Nat.mul_le_mul_right plan.heads hk)
    rw [Nat.add_mul, Nat.add_mul, Nat.one_mul] at hle
    refine ⟨rfl, ?_, ?_⟩
    · change addr 0 ≤ addr (k * plan.heads)
      rw [haddr (k * plan.heads)]
      omega
    · change addr (k * plan.heads) + (plan.heads * hb : Nat) ≤ addr owned
      rw [haddr (k * plan.heads), haddr owned]
      omega
  · have hk : i / plan.heads < plan.reads :=
      Nat.div_lt_of_lt_mul (by rw [Nat.mul_comm, ← howned]; exact hi)
    exact ⟨_, by rw [getElem?_map, getElem?_range hk]; rfl,
      (hcovers _ i y hy).mpr rfl⟩
  · rintro k ⟨e, he, hcov⟩
    rw [getElem?_map, Option.map_eq_some_iff] at he
    obtain ⟨k', hk', rfl⟩ := he
    obtain rfl : k = k' := by simpa using (List.getElem?_eq_some_iff.mp hk').2
    exact (hcovers k i y hy).mp hcov
  · rintro e ⟨k, hk, rfl⟩ hcov
    obtain rfl := (hcovers k i y hy).mp hcov
    have hfirst := plan.first_eq _ hk
    have hfits := plan.fits
    have hmod := Nat.div_add_mod' i plan.heads
    have hlt := Nat.mod_lt i plan.heads_pos
    refine ⟨plan.rank_lt _ hk, plan.offset * (plan.reads * plan.heads) + i % plan.heads, by omega,
      by dsimp only; omega, ?_⟩
    have hi : addr i = headAddr K D bf hb base b s
        (i / plan.heads * plan.heads) + (i % plan.heads * hb : Nat) := by rw [headAddr_add, hmod]
    rw [← headAddr_add, hi]
    ring

end reads

theorem plannedReads_exact_replicated :
    ∃! k : Nat, ∃ e, (plannedReads (topo 0 1 2) 4 (replicate (0 + 1) .attention)
      (cachesOf 2 1 [8] true 3 [1000]) (fun _ => cachesOf 2 4 [8] true 5 [0])
      (parts true * 0 + 1) 2 4)[k]? = some e ∧
      e.dst.covers (headAddr 2 1 true 8 1000 2 1 1 + (3 : Nat)) :=
  ((plannedReads_exact rfl rfl (fun _ => rfl) (by decide) (by decide) (by decide) (by decide)
    (by decide) (by decide) (.inr ⟨4, rfl⟩) (.inl ⟨2, rfl⟩) (.inr ⟨2, rfl⟩)).2 1 (by decide) 3
    (by decide)).1

end TailBlend.Nixl
