import TailBlend.OwnershipRuns
import TailBlend.CacheHitLength

/-! The null block: the pool never hands it out or finds it by a hash, and in the list of a
request of a recycling group the null blocks come first. -/
namespace TailBlend
open List

namespace BlockPool

/-- The null block is neither free nor cached. -/
structure NullKept (p : BlockPool) : Prop where
  free : 0 ∉ p.freeBlockQueue
  cached : ∀ key, 0 ∉ p.cachedBlockHashToBlock key

variable {p p' : BlockPool}

theorem nullKept_init (n : Nat) (caching : Bool) (size : Nat) (events : Bool) :
    (init n caching size events).NullKept := by
  refine ⟨?_, by simp [init]⟩
  cases n with
  | zero => simp [init]
  | succ n => simp [init]

variable (h : p.NullKept) {blocks : List Nat}
include h

theorem NullKept.maybeEvict (b : Nat) : (p.maybeEvictCachedBlock b).NullKept := by
  refine ⟨by simpa using h.free, fun key => ?_⟩
  unfold maybeEvictCachedBlock
  split
  · exact h.cached key
  split_ifs
  · simp only [Function.update_apply]
    split_ifs
    · exact fun h0 => h.cached _ (mem_of_mem_erase h0)
    · exact h.cached key
  · exact h.cached key

theorem NullKept.register (key : BlockKey) {b : Nat} (hb : b ≠ 0) :
    (p.register key b).NullKept :=
  ⟨h.free, notMem_register h.cached key hb⟩

theorem NullKept.cacheFullBlocksFrom {groupId : Nat} {bs : List Nat}
    {hashes : List (List BlockHash)}
    (he : BlockPool.cacheFullBlocksFrom groupId p bs hashes = .ok p') : p'.NullKept := by
  induction bs generalizing p hashes with
  | nil =>
    cases he
    exact h
  | cons b bs ih =>
    unfold BlockPool.cacheFullBlocksFrom at he
    split_ifs at he with hb hs
    · exact ih h he
    · split at he
      · cases he
      · exact ih (h.register _ hb) he

theorem NullKept.cacheFullBlocks {blockHashes : List BlockHash} {tokens : List Int}
    {numCached numFull blockSize groupId : Nat}
    (he : p.cacheFullBlocks blockHashes tokens blocks numCached numFull blockSize groupId =
      .ok p') : p'.NullKept := by
  by_cases hn : numCached < numFull
  · obtain ⟨q, hq, hcase⟩ := cacheFullBlocks_eq he hn
    have hkept := h.cacheFullBlocksFrom hq
    rcases hcase with ⟨-, rfl⟩ | ⟨-, event, -, rfl⟩
    · exact hkept
    · exact ⟨hkept.free, hkept.cached⟩
  · unfold BlockPool.cacheFullBlocks at he
    rw [if_pos (not_lt.mp hn)] at he
    cases he
    exact h

theorem NullKept.handOut {b : Nat} (he : p.handOut b = .ok p') : p'.NullKept := by
  have hq : (if p.enableCaching then p.maybeEvictCachedBlock b else p).NullKept := by
    split_ifs
    · exact h.maybeEvict b
    · exact h
  unfold BlockPool.handOut at he
  simp only at he
  generalize (if p.enableCaching then p.maybeEvictCachedBlock b else p) = q at hq he
  split_ifs at he
  cases he
  exact ⟨hq.free, hq.cached⟩

theorem NullKept.getNewBlocks {n : Int} {ret : List Nat} (he : p.getNewBlocks n = .ok (p', ret)) :
    p'.NullKept ∧ 0 ∉ ret ∧ ret.length = n.toNat := by
  unfold BlockPool.getNewBlocks at he
  split_ifs at he
  rw [seq_ok_iff] at he
  obtain ⟨⟨q, taken⟩, hpop, he⟩ := he
  simp only [seq_ok_iff] at he
  obtain ⟨q', hfold, he⟩ := he
  cases he
  have hq : q.NullKept ∧ 0 ∉ ret ∧ ret.length = n.toNat := by
    unfold popleftN at hpop
    split_ifs at hpop with h0
    · cases hpop
      exact ⟨h, by simp, by simp [h0]⟩
    cases hpop
    refine ⟨⟨fun hd => h.free (mem_of_mem_drop hd), h.cached⟩,
      fun ht => h.free (mem_of_mem_take ht), ?_⟩
    rw [length_take]
    omega
  exact ⟨foldlM_induct NullKept (fun b _ _ _ hs hb => hs.handOut hb) hq.1 hfold, hq.2⟩

theorem NullKept.touch (he : p.touch blocks = .ok p') : p'.NullKept := by
  refine foldlM_induct NullKept (fun b _ s s' hs hb => ?_) h he
  unfold touchOne at hb
  split_ifs at hb <;> cases hb
  · exact ⟨fun h0 => hs.free (mem_of_mem_erase h0), hs.cached⟩
  · exact ⟨hs.free, hs.cached⟩

theorem NullKept.freeBlocks (blocks : List Nat) : (p.freeBlocks blocks).NullKept := by
  refine ⟨?_, h.cached⟩
  simpa [BlockPool.freeBlocks] using h.free

theorem NullKept.evictBlocks {ids : List Nat} (he : p.evictBlocks ids = .ok p') : p'.NullKept := by
  refine foldlM_induct NullKept (fun b _ s s' hs hb => ?_) h he
  split_ifs at hb
  cases hb
  exact hs.maybeEvict b

theorem NullKept.resetPrefixCache : p.resetPrefixCache.1.NullKept := by
  unfold BlockPool.resetPrefixCache
  split_ifs
  · exact h
  · exact ⟨h.free, by simp⟩

end BlockPool

/-! Lists in which the null blocks come first. -/

def NullsFirst (l : List Nat) : Prop := ∃ z : Nat, ∀ j b : Nat, l[j]? = some b → (b = 0 ↔ j < z)

def held (l : List Nat) : Nat := l.countP (fun b => b ≠ 0)

def nullBelow (n : Nat) (l : List Nat) : List Nat := replicate (min n l.length) 0 ++ l.drop n

theorem nullsFirst_nil : NullsFirst [] := ⟨0, by simp⟩

variable {l : List Nat}

theorem NullsFirst.append {new : List Nat} (h : NullsFirst l) (hnew : 0 ∉ new) :
    NullsFirst (l ++ new) := by
  obtain ⟨z, hz⟩ := h
  refine ⟨min z l.length, fun j b hj => ?_⟩
  by_cases hlt : j < l.length
  · rw [getElem?_append_left hlt] at hj
    rw [hz j b hj]
    omega
  rw [getElem?_append_right (by omega)] at hj
  have : b ≠ 0 := by
    rintro rfl
    exact hnew (mem_of_getElem? hj)
  omega

theorem NullsFirst.replicate_append_drop (h : NullsFirst l) (k n : Nat) :
    NullsFirst (replicate k 0 ++ l.drop n) := by
  obtain ⟨z, hz⟩ := h
  refine ⟨k + (z - n), fun j b hj => ?_⟩
  by_cases hlt : j < k
  · rw [getElem?_append_left (by simpa using hlt), getElem?_replicate, if_pos hlt] at hj
    cases hj
    omega
  rw [getElem?_append_right (by simpa using hlt), length_replicate, getElem?_drop] at hj
  rw [hz _ b hj]
  omega

theorem held_append (l l' : List Nat) : held (l ++ l') = held l + held l' := countP_append

theorem held_replicate_append (k : Nat) (l : List Nat) : held (replicate k 0 ++ l) = held l := by
  rw [held_append, held]
  simp

theorem held_nullBelow_le (n : Nat) (l : List Nat) : held (nullBelow n l) ≤ held l := by
  rw [nullBelow, held_replicate_append]
  exact (drop_sublist n l).countP_le

theorem held_le_of_null_below {n : Nat} (h : ∀ j b : Nat, j < n → l[j]? = some b → b = 0) :
    held l ≤ l.length - n := by
  have htake : held (l.take n) = 0 := by
    rw [held, countP_eq_zero]
    intro b hb
    obtain ⟨j, hj⟩ := mem_iff_getElem?.mp hb
    rw [getElem?_take] at hj
    split_ifs at hj with hlt
    simp [h j b hlt hj]
  calc held l = held (l.take n) + held (l.drop n) := by
        rw [← held_append, take_append_drop]
    _ ≤ l.length - n := by
        have : held (l.drop n) ≤ (l.drop n).length := countP_le_length
        rw [length_drop] at this
        omega

theorem length_nullBelow (n : Nat) (l : List Nat) : (nullBelow n l).length = l.length := by
  simp only [nullBelow, length_append, length_replicate, length_drop]
  omega

theorem nullBelow_null {n j b : Nat} (hj : j < n) (h : (nullBelow n l)[j]? = some b) : b = 0 := by
  have hlt : j < l.length := by
    have := (List.getElem?_eq_some_iff.mp h).1
    rwa [length_nullBelow] at this
  rw [nullBelow, getElem?_append_left (by simp; omega), getElem?_replicate, if_pos (by omega)] at h
  exact (Option.some_inj.mp h).symm

namespace Manager

/-- Where the null blocks come first, stopping at the first null block from the right loses
nothing. The induction shortens the prefix, on which the order of the entries is unchanged. -/
theorem nullSkipped_eq {n : Nat} {l : List Nat} (hn : n ≤ l.length)
    (h : ∀ i j : Nat, i ≤ j → j < n → l[j]? = some 0 → l[i]? = some 0) :
    (nullSkipped n l).1 = replicate n 0 ++ l.drop n := by
  induction n generalizing l with
  | zero => rfl
  | succ k ih =>
    have hget : l[k]? = some (l.getD k 0) := by
      rw [getD_eq_getElem?_getD, getElem?_eq_getElem (by omega), Option.getD_some]
    unfold nullSkipped
    split
    · rename_i h0
      rw [h0] at hget
      refine ext_getElem? (fun i => ?_)
      by_cases hi : i ≤ k
      · rw [h i k hi (by omega) hget, getElem?_append_left (by simp; omega),
          getElem?_replicate, if_pos (by omega)]
      rw [getElem?_append_right (by simp; omega), length_replicate, getElem?_drop]
      congr 1
      omega
    rw [ih (by simp; omega) (fun i j hij hj h0 => ?_), drop_set,
      if_neg (by omega), Nat.sub_self, replicate_succ', append_assoc]
    · rw [drop_eq_getElem_cons (show k < l.length by omega)]
      rfl
    · rw [getElem?_set_ne (by omega)] at h0 ⊢
      exact h i j hij (by omega) h0

theorem nullSkipped_of_nullsFirst {l : List Nat} (h : NullsFirst l) (n : Nat) :
    (nullSkipped (min n l.length) l).1 = nullBelow n l := by
  obtain ⟨z, hz⟩ := h
  rw [nullSkipped_eq (Nat.min_le_right _ _)]
  · rw [nullBelow]
    by_cases hn : n ≤ l.length
    · rw [Nat.min_eq_left hn]
    · rw [Nat.min_eq_right (by omega), drop_length, drop_eq_nil_of_le (by omega)]
  · intro i j hij hj h0
    have hlt : j < z := (hz j 0 h0).mp rfl
    have hi : i < l.length := by omega
    have hget := getElem?_eq_getElem hi
    rw [hget, (hz i _ hget).mpr (by omega)]

end Manager

/-! The hits of a recycling group: rows of null blocks, then rows of cached ones. -/

/-- Sliding windows and chunks give blocks back while a request runs. -/
def KVCacheSpec.recycles (spec : KVCacheSpec) : Bool :=
  match spec.kind with
  | .slidingWindow _ | .chunkedLocal _ => true
  | _ => false

namespace CacheHit
open BlockPool

def NullRowsFirst (p : BlockPool) (groupIds : List Nat) (rows : Rows) : Prop :=
  ∃ z : Nat, ∀ (j : Nat) row, rows[j]? = some row → (j < z → row = nullRow groupIds) ∧
    (z ≤ j → ∃ h, p.getCachedBlock h groupIds = some row)

section rows
variable {p : BlockPool} {hashes : List (List BlockHash)} {groupIds : List Nat} {rows : Rows}

theorem NullRowsFirst.take (h : NullRowsFirst p groupIds rows) (n : Nat) :
    NullRowsFirst p groupIds (rows.take n) := by
  obtain ⟨z, hz⟩ := h
  refine ⟨z, fun j row hj => ?_⟩
  rw [getElem?_take] at hj
  split_ifs at hj
  exact hz j row hj

theorem NullRowsFirst.column (h : NullRowsFirst p groupIds rows) (hp : p.NullKept) {k g : Nat}
    (hk : groupIds[k]? = some g) : NullsFirst (column rows k) := by
  obtain ⟨z, hz⟩ := h
  refine ⟨z, fun j b hj => ?_⟩
  rw [CacheHit.column, getElem?_map, Option.map_eq_some_iff] at hj
  obtain ⟨row, hrow, rfl⟩ := hj
  obtain ⟨hnull, hcached⟩ := hz j row hrow
  by_cases hlt : j < z
  · rw [hnull hlt]
    simp only [hlt, iff_true, nullRow, getD_eq_getElem?_getD, getElem?_replicate]
    split_ifs <;> rfl
  obtain ⟨key, hkey⟩ := hcached (by omega)
  obtain ⟨b, hb, hone⟩ := (getCachedBlock_eq_some hkey).2 k g hk
  simp only [hlt, iff_false, getD_eq_getElem?_getD, hb]
  rintro rfl
  exact hp.cached _ (mem_of_mem_head? hone)

variable {blockSize alignment maxLength : Nat} {useEagle : Bool}

theorem slidingSearch_null {needed i run : Nat} {computed : Rows} {run' : Nat}
    (hnull : ∀ (j : Nat) row, j < i → computed[j]? = some row → row = nullRow groupIds)
    (hlen : i + run ≤ computed.length)
    (he : slidingSearch p hashes groupIds blockSize useEagle alignment needed i computed run =
      .ok (rows, run', true)) (j : Nat) (row : List Nat) (hj : j < rows.length - run')
    (hrow : rows[j]? = some row) : row = nullRow groupIds := by
  fun_induction slidingSearch with
  | case1 => cases he
  | case2 => cases he
  | case3 i computed run k hk x hr hskip ih =>
    exact ih (fun j row hj => hnull j row (by omega)) (by omega) he
  | case4 i computed run k hk x hr hskip hn =>
    cases he
    rw [length_take] at hj
    rw [getElem?_take, if_pos (by omega), getElem?_set_ne (by omega)] at hrow
    exact hnull j row (by omega) hrow
  | case5 i computed run k hk x hr hskip hn ih =>
    refine ih (fun j row hj hr => ?_) (by rw [length_set]; omega) he
    rw [getElem?_set_ne (by omega)] at hr
    exact hnull j row (by omega) hr
  | case6 i computed run k hk hr ih =>
    exact ih (fun j row hj => hnull j row (by omega)) (by omega) he

theorem slidingWindow_nullsFirst {w : Nat}
    (he : slidingWindow p hashes maxLength groupIds blockSize w useEagle alignment = .ok rows) :
    NullRowsFirst p groupIds rows := by
  unfold slidingWindow at he
  rw [seq_ok_iff] at he
  obtain ⟨⟨computed, run, found⟩, hs, he⟩ := he
  simp only at he
  obtain ⟨hle, hrun, hfound, hmiss⟩ := slidingSearch_spec (by simp)
    ⟨fun j h1 h2 => by omega, fun h => by omega⟩ hs
  have hkept : NullRowsFirst p groupIds (if found = true then computed else
      popUnaligned blockSize alignment (computed.take run)) := by
    cases found with
    | true =>
      rw [if_pos rfl]
      obtain ⟨-, -, hr⟩ := hfound rfl
      refine ⟨computed.length - run, fun j row hj => ⟨fun hlt => ?_, fun hge => ?_⟩⟩
      · refine slidingSearch_null (fun j row hj hr => ?_) (by simp) hs j row hlt hj
        rw [getElem?_replicate, if_pos hj] at hr
        exact (Option.some_inj.mp hr).symm
      obtain ⟨row', key, hrow', hkey⟩ := hr.cached j hge (List.getElem?_eq_some_iff.mp hj).1
      rw [hj] at hrow'
      cases hrow'
      exact ⟨key, hkey⟩
    | false =>
      have hr := hmiss rfl
      have htaken : NullRowsFirst p groupIds (computed.take run) := by
        refine ⟨0, fun j row hj => ⟨by simp, fun _ => ?_⟩⟩
        rw [getElem?_take] at hj
        split_ifs at hj with hlt
        obtain ⟨row', key, hrow', hkey⟩ := hr.cached j (by omega) hlt
        rw [hj] at hrow'
        cases hrow'
        exact ⟨key, hkey⟩
      exact htaken.take _
  generalize (if found = true then computed else
    popUnaligned blockSize alignment (computed.take run)) = kept at he hkept
  split_ifs at he
  · cases he
    rw [dropLast_eq_take]
    exact (hkept.take _).take _
  · cases he
    exact hkept

theorem chunkedLocal_nullsFirst {chunk : Nat}
    (he : chunkedLocal p hashes maxLength groupIds blockSize chunk useEagle alignment = .ok rows) :
    NullRowsFirst p groupIds rows := by
  unfold chunkedLocal at he
  simp only [seq_ok_iff] at he
  obtain ⟨-, -, -, -, hits, hscan, he⟩ := he
  cases he
  refine ⟨maxLength / chunk * chunk / blockSize, fun j row hj => ⟨fun hlt => ?_, fun hge => ?_⟩⟩
  · rw [getElem?_append_left (by simpa using hlt), getElem?_replicate, if_pos hlt] at hj
    exact (Option.some_inj.mp hj).symm
  · rw [getElem?_append_right (by simpa using hge)] at hj
    obtain ⟨key, -, hkey⟩ := scanFrom_sound hscan _ row hj
    exact ⟨key, hkey⟩

theorem findLongestCacheHit_nullsFirst {spec : KVCacheSpec} (hspec : spec.recycles = true)
    (he : findLongestCacheHit p spec hashes maxLength groupIds useEagle alignment = .ok rows) :
    NullRowsFirst p groupIds rows := by
  unfold findLongestCacheHit at he
  unfold KVCacheSpec.recycles at hspec
  split at he <;> rename_i hk <;> simp only [hk, Bool.false_eq_true] at hspec
  · exact slidingWindow_nullsFirst he
  · exact chunkedLocal_nullsFirst he

end rows
end CacheHit

namespace KVCacheManager
open CacheHit
variable {α : Type} [DecidableEq α]

omit [DecidableEq α] in
theorem getComputedBlocks_nullsFirst {kv : KVCacheManager α} {req : KVRequest α}
    {hits : List (List Nat)} {cached : Nat} (hp : kv.pool.NullKept)
    (he : kv.getComputedBlocks req = .ok (hits, cached)) {i : Nat} {m : Manager α}
    (hm : kv.managers[i]? = some m) (hspec : m.spec.recycles = true) :
    NullsFirst (hits.getD i []) := by
  have hi : kv.specs[i]? = some m.spec := by simp [specs, hm]
  rcases Ownership.getComputedBlocks_cases he with
    ⟨hnil, -⟩ | ⟨-, ⟨spec, _, rows, hspecs, hrows, rfl, -⟩ | ⟨-, hres⟩⟩
  · rw [Ownership.getD_of_forall_nil hnil]
    exact nullsFirst_nil
  · rw [hspecs, getElem?_singleton] at hi
    split_ifs at hi with hzero
    cases hi
    subst hzero
    exact (findLongestCacheHit_nullsFirst hspec hrows).column hp rfl
  rcases hybrid_rows (P := fun g rows => g.spec.recycles = true →
      NullRowsFirst kv.pool g.groupIds rows)
    (fun g _ _ _ rows hrows hg => findLongestCacheHit_nullsFirst hg hrows)
    (fun g _ => ⟨0, by simp⟩) (fun g rows n hr hg => (hr hg).take n) hres hi with
    hnil | ⟨g, k, rows, hg, hk, hrows, heq⟩
  · rw [hnil]
    exact nullsFirst_nil
  · rw [heq]
    exact (hrows (hg ▸ hspec)).column hp hk

end KVCacheManager
end TailBlend
