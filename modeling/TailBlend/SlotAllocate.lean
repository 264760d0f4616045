import TailBlend.SlotLedger

/-! The allocator returns whenever the free queue holds the blocks it asks for. -/
namespace TailBlend.Ownership
open BlockPool Manager List
variable {α : Type} [DecidableEq α]

def newCount (m : Manager α) (r : α) (len numTokens numTokensMainModel : Int) : Int :=
  match m.spec.kind with
  | .mamba .align n =>
    if cdiv numTokensMainModel m.blockSize + n ≤ len then 0
    else if r ∈ m.allocatedBlockReqs then 1
    else min (cdiv numTokensMainModel m.blockSize + n - len) (n + 1)
  | .mamba _ n => max (cdiv (numTokens + m.blockSize * n) m.blockSize - len) 0
  | _ => max (cdiv numTokens m.blockSize - len) 0

theorem newCount_nonneg (m : Manager α) (r : α) (len t tm : Int) : 0 ≤ newCount m r len t tm := by
  unfold newCount
  split
  · split_ifs <;> omega
  · exact le_max_right _ _
  · exact le_max_right _ _

variable {m m' : Manager α}

theorem newCount_congr (hs : m'.spec = m.spec) (ha : m'.allocatedBlockReqs = m.allocatedBlockReqs)
    (r : α) (len t tm : Int) : newCount m' r len t tm = newCount m r len t tm := by
  have hb : m'.blockSize = m.blockSize := congrArg KVCacheSpec.blockSize hs
  unfold newCount
  rw [hs, hb, ha]

/-- In align mode the list must not be longer than the required one. -/
def AlignFits (m : Manager α) (len numTokensMainModel : Int) : Prop :=
  ∀ n, m.spec.kind = .mamba .align n → len ≤ cdiv numTokensMainModel m.blockSize + n

/-- `allocate_new_blocks` ran: the list grew to the required length. -/
structure Placed (m m' : Manager α) (r : α) (numTokens numTokensMainModel : Int) : Prop where
  other : ∀ a, a ≠ r → SameFor m m' a
  cached : m'.numCachedBlock = m.numCachedBlock
  grows : (m.blocks r).length ≤ (m'.blocks r).length
  enough : (∀ n, m.spec.kind ≠ .mamba .align n) →
    cdiv numTokens m.blockSize ≤ (m'.blocks r).length
  aligned : ∀ n, m.spec.kind = .mamba .align n →
    ((m'.blocks r).length : Int) = cdiv numTokensMainModel m.blockSize + n ∧
      (r ∈ m'.allocatedBlockReqs ∨
        ((m.blocks r).length : Int) = cdiv numTokensMainModel m.blockSize + n)
  keeps : r ∈ m.allocatedBlockReqs → r ∈ m'.allocatedBlockReqs
  last : LastOK m r → LastOK m' r
  plain : (∀ n, m.spec.kind ≠ .mamba .align n) →
    (r ∈ m'.allocatedBlockReqs ↔ r ∈ m.allocatedBlockReqs) ∧
      m'.lastStateBlockIdx.get? r = m.lastStateBlockIdx.get? r

section allocate
variable {p : BlockPool} {ms₁ ms₂ : List (Manager α)} {m : Manager α} {r : α}

theorem sameFor_noteNewBlocks (m : Manager α) (ids : List Nat) (a : α) :
    SameFor m (m.noteNewBlocks ids) a := by
  unfold noteNewBlocks
  split <;> exact ⟨rfl, rfl, Iff.rfl, rfl⟩

theorem blocks_setBlocks (m : Manager α) (r : α) (l : List Nat) :
    (m.setBlocks r l).blocks r = l := by
  simp [Manager.blocks, setBlocks]

variable {t tm : Int} {n : Nat}

theorem placed_self
    (henough : (∀ n, m.spec.kind ≠ .mamba .align n) → cdiv t m.blockSize ≤ (m.blocks r).length)
    (halign : ∀ n, m.spec.kind = .mamba .align n →
      ((m.blocks r).length : Int) = cdiv tm m.blockSize + n) :
    Placed m (m.setBlocks r (m.blocks r)) r t tm := by
  have hb := blocks_setBlocks m r (m.blocks r)
  refine ⟨fun a ha => sameFor_setBlocks m ha _, rfl, by rw [hb], by rwa [hb], ?_, id, ?_,
    fun _ => ⟨Iff.rfl, rfl⟩⟩
  · intro n hk
    rw [hb]
    exact ⟨halign n hk, .inr (halign n hk)⟩
  · intro hl idx hidx
    rw [hb]
    exact hl idx hidx

theorem Private.self (hp : Private p (ms₁ ++ m :: ms₂)) (ho : Owned p (ms₁ ++ m :: ms₂)) (r : α) :
    Private p (ms₁ ++ m.setBlocks r (m.blocks r) :: ms₂) := by
  have hc : Changed m (m.setBlocks r (m.blocks r)) r (m.blocks r) := changed_of_set rfl rfl rfl
  exact hp.update ho hc (fun _ _ => rfl) (fun b _ hn h1 _ => ⟨hn, h1⟩)
    (fun i b hi hget hb => hp m (by simp) r i b hi hget hb)

theorem baseAllocate_total (ho : Owned p (ms₁ ++ m :: ms₂)) (hp : Private p (ms₁ ++ m :: ms₂))
    {t' : Int} (hk : ∀ n, m.spec.kind ≠ .mamba .align n)
    (ht : cdiv t' m.blockSize ≤ cdiv t m.blockSize)
    (hfree : max (cdiv t m.blockSize - (m.blocks r).length) 0 ≤ p.numFreeBlocks) :
    ∃ p' m' xs, m.baseAllocateNewBlocks p r t = .ok (p', m', xs) ∧
      Private p' (ms₁ ++ m' :: ms₂) ∧ Placed m m' r t' tm ∧
      p'.numFreeBlocks = p.numFreeBlocks - max (cdiv t m.blockSize - (m.blocks r).length) 0 := by
  by_cases hle : cdiv t m.blockSize - (m.blocks r).length ≤ 0
  · refine ⟨p, m.setBlocks r (m.blocks r), [], ?_, ?_, ?_, by omega⟩
    · simp only [baseAllocateNewBlocks, if_pos hle]
    · exact hp.self ho r
    · exact placed_self (fun _ => by omega) (fun n h => absurd h (hk n))
  obtain ⟨p', ret, hget, hnew⟩ := getNewBlocks_of_le ho.pool ho.hash
    (n := cdiv t m.blockSize - (m.blocks r).length) (by omega) (by omega)
  have hrun : m.baseAllocateNewBlocks p r t = .ok (p',
      (m.setBlocks r (m.blocks r ++ ret)).noteNewBlocks ret, ret) := by
    simp only [baseAllocateNewBlocks, if_neg hle]
    rw [hget]
    rfl
  have hc : Changed m ((m.setBlocks r (m.blocks r ++ ret)).noteNewBlocks ret) r
      (m.blocks r ++ ret) := by
    refine changed_of_set ?_ ?_ ?_ <;> simp [setBlocks]
  have hsame := sameFor_noteNewBlocks (m.setBlocks r (m.blocks r ++ ret)) ret
  have hb : ((m.setBlocks r (m.blocks r ++ ret)).noteNewBlocks ret).blocks r =
      m.blocks r ++ ret := by
    rw [hc.blocks, if_pos rfl]
  have hlen := hnew.length
  refine ⟨p', _, ret, hrun, ?_, ?_, by rw [hnew.numFree]; omega⟩
  · exact hp.extend ho hc (fun a => (hsame a).numCached)
      (fun i b hget _ hi => ⟨i, hi, hget⟩) hnew
  refine ⟨fun a ha => (sameFor_setBlocks m ha _).trans (hsame a), ?_, ?_, fun _ => ?_,
    fun n h => absurd h (hk n), (hsame r).allocated.mpr, fun hl idx hidx => ?_,
    fun _ => ⟨(hsame r).allocated, (hsame r).last⟩⟩
  · unfold noteNewBlocks
    split <;> rfl
  · rw [hb, length_append]
    omega
  · rw [hb, length_append]
    omega
  rw [(hsame r).last] at hidx
  have := hl idx hidx
  rw [hb, length_append]
  omega

theorem reuseSpeculative_source {k : Int} {idx : Int} {bs bs' : List Nat} (h0 : 0 ≤ idx)
    (hn : idx + n ≤ bs.length) (h : reuseSpeculative k n idx bs = .ok bs') {i b : Nat} (hb : b ≠ 0)
    (hget : bs'[i]? = some b) : bs[i]? = some b ∨ ∃ j : Nat, idx ≤ j ∧ bs[j]? = some b := by
  induction n generalizing idx bs with
  | zero =>
    cases h
    exact .inl hget
  | succ n ih =>
    unfold reuseSpeculative at h
    split_ifs at h with hlt
    · rw [pyIndex_of_nonneg h0 (by omega), pyIndex_of_nonneg h0 (by push_cast; omega)] at h
      have hi : idx.toNat < bs.length := by omega
      -- a place of the list after one move
      have hone (j : Nat) (hj : ((bs ++ [bs.getD idx.toNat 0]).set idx.toNat 0)[j]? = some b) :
          bs[j]? = some b ∨ bs[idx.toNat]? = some b := by
        rw [getElem?_set] at hj
        split_ifs at hj with hx
        · exact absurd (Option.some.inj hj).symm hb
        by_cases hjl : j < bs.length
        · rw [getElem?_append_left hjl] at hj
          exact .inl hj
        rw [getElem?_append_right (by omega)] at hj
        have hz : j - bs.length = 0 := by
          have := (List.getElem?_eq_some_iff.mp hj).1
          simp only [length_cons, length_nil] at this
          omega
        rw [hz] at hj
        rw [← hj]
        simp [hi]
      rcases ih (by omega) (by simp; omega) h with hsame | ⟨j, hj, hjb⟩
      · rcases hone i hsame with h1 | h1
        · exact .inl h1
        · exact .inr ⟨idx.toNat, by omega, h1⟩
      · rcases hone j hjb with h1 | h1
        · exact .inr ⟨j, by omega, h1⟩
        · exact Or.inr ⟨idx.toNat, by omega, h1⟩
    · cases h
      exact .inl hget

theorem alignMoved_total {k : Int} (ha : AlignOK m) (hk : m.spec.kind = .mamba .align n)
    (hlt : (m.blocks r).length < k) :
    ∃ moved, m.alignMoved n r k = .ok moved ∧
      (moved.length : Int) = (if r ∈ m.allocatedBlockReqs then k - 1
        else max ((m.blocks r).length : Int) (k - n - 1)) ∧
      ∀ i b : Nat, moved[i]? = some b → b ≠ 0 → (m.blocks r)[i]? = some b ∨
        r ∈ m.allocatedBlockReqs ∧
          ∃ j : Nat, (m.blocks r).length ≤ j + n ∧ (m.blocks r)[j]? = some b := by
  unfold alignMoved
  set padded := m.blocks r ++ replicate (k - n - 1 - (m.blocks r).length).toNat 0 with hpad
  have hpadlen : padded.length = (m.blocks r).length + (k - n - 1 - (m.blocks r).length).toNat := by
    simp [hpad]
  have hpadget (j b : Nat) (hb : b ≠ 0) (hj : padded[j]? = some b) :
      (m.blocks r)[j]? = some b := by
    by_cases hjl : j < (m.blocks r).length
    · rwa [getElem?_append_left hjl] at hj
    · rw [getElem?_append_right (by omega)] at hj
      exact absurd (eq_of_mem_replicate (mem_of_getElem? hj)) hb
  split_ifs with hr
  · have hlen := ha n hk r hr
    have h0 : 0 ≤ ((m.blocks r).length : Int) - n := by omega
    have hend : ((m.blocks r).length : Int) - n + n ≤ padded.length := by omega
    obtain ⟨moved, hmoved⟩ := reuseSpeculative_ok (k := k - n - 1) h0 hend
    obtain ⟨-, hl⟩ := reuseSpeculative_spec (by omega) (by omega) hmoved
    refine ⟨moved, hmoved, by omega, fun i b hget hb => ?_⟩
    rcases reuseSpeculative_source (by omega) (by omega) hmoved hb hget with h | ⟨j, hj, hjb⟩
    · exact .inl (hpadget i b hb h)
    · exact .inr ⟨hr, j, by omega, hpadget j b hb hjb⟩
  · exact ⟨padded, rfl, by omega, fun i b hget hb => .inl (hpadget i b hb hget)⟩

theorem lastOK_record (ha : AlignOK m) (hk : m.spec.kind = .mamba .align n) (hl : LastOK m r)
    (idx : Int) (hidx : (m.recordLastState n r).get? r = some idx) :
    0 ≤ idx ∧ idx < (m.blocks r).length := by
  unfold recordLastState at hidx
  simp only at hidx
  split_ifs at hidx with hr hpos
  · have := ha n hk r hr
    rw [Dict.get?_set_self] at hidx
    cases hidx
    omega
  · rw [Dict.get?_set_self] at hidx
    cases hidx
    omega
  · exact hl idx hidx

theorem alignAllocate_total (ho : Owned p (ms₁ ++ m :: ms₂)) (hp : Private p (ms₁ ++ m :: ms₂))
    (hk : m.spec.kind = .mamba .align n) (hfits : (m.blocks r).length ≤ cdiv tm m.blockSize + n)
    (hcached : r ∈ m.allocatedBlockReqs → numCached m r + n ≤ (m.blocks r).length)
    (hfree : newCount m r (m.blocks r).length t tm ≤ p.numFreeBlocks) :
    ∃ p' m' xs, m.alignAllocateNewBlocks p n r tm = .ok (p', m', xs) ∧
      Private p' (ms₁ ++ m' :: ms₂) ∧ Placed m m' r t tm ∧
      p'.numFreeBlocks = p.numFreeBlocks - newCount m r (m.blocks r).length t tm := by
  simp only [newCount, hk] at hfree ⊢
  by_cases heq : cdiv tm m.blockSize + n = (m.blocks r).length
  · refine ⟨p, m.setBlocks r (m.blocks r), [], ?_, hp.self ho r, ?_, ?_⟩
    · simp only [alignAllocateNewBlocks, if_pos heq]
    · refine placed_self (fun h => absurd hk (h n)) (fun n' hk' => ?_)
      rw [hk] at hk'
      cases hk'
      exact heq.symm
    · omega
  have hlt : (m.blocks r).length < cdiv tm m.blockSize + n := by omega
  obtain ⟨moved, hmoved, hlen, hsource⟩ := alignMoved_total ho.align_self hk hlt
  rw [if_neg (by omega)] at hfree ⊢
  set k := cdiv tm m.blockSize + n with hkdef
  have hcount : k - moved.length = if r ∈ m.allocatedBlockReqs then 1
      else min (k - (m.blocks r).length) (n + 1) := by
    split_ifs at hlen ⊢ <;> omega
  obtain ⟨p', ret, hget, hnew⟩ := getNewBlocks_of_le ho.pool ho.hash (n := k - moved.length)
    (by split_ifs at hcount <;> omega) (by rw [hcount]; exact hfree)
  let m' : Manager α := { m.setBlocks r (moved ++ ret) with
    lastStateBlockIdx := m.recordLastState n r
    allocatedBlockReqs := if r ∈ m.allocatedBlockReqs then m.allocatedBlockReqs
      else r :: m.allocatedBlockReqs }
  have hrun : m.alignAllocateNewBlocks p n r tm =
      .ok (p', m', (moved ++ ret).drop (m.blocks r).length) := by
    have hassert : pyAssert (k - moved.length ≤
        if r ∈ m.allocatedBlockReqs then 1 else (n : Int) + 1) "" = .ok () := by
      rw [pyAssert_eq_ok, hcount]
      split_ifs <;> omega
    simp only [alignAllocateNewBlocks]
    rw [if_neg heq, if_neg (by omega), hmoved]
    simp only [bind, Except.bind]
    rw [hassert]
    rw [hget]
    rfl
  have hc : Changed m m' r (moved ++ ret) := changed_of_set rfl rfl rfl
  have hb : m'.blocks r = moved ++ ret := by rw [hc.blocks, if_pos rfl]
  have hmem : r ∈ m'.allocatedBlockReqs := by
    simp only [m']
    split_ifs with hr
    · exact hr
    · simp
  have hlen' : ((m'.blocks r).length : Int) = k := by
    have := hnew.length
    rw [hb, length_append]
    split_ifs at hcount <;> push_cast <;> omega
  refine ⟨p', m', _, hrun, ?_, ?_, by rw [hnew.numFree, hcount]⟩
  · refine hp.extend ho hc (fun a => rfl) (fun i b hget hb hi => ?_) hnew
    rcases hsource i b hget hb with h | ⟨hr, j, hj, hjb⟩
    · exact ⟨i, hi, h⟩
    · have := hcached hr
      exact ⟨j, by omega, hjb⟩
  refine ⟨fun a ha => ?_, rfl, by omega, fun h => absurd hk (h n), fun n' hk' => ?_,
    fun _ => hmem, fun hl idx hidx => ?_, fun h => absurd hk (h n)⟩
  · refine ⟨by rw [hc.blocks, if_neg ha], rfl, ?_, ?_⟩
    · simp only [m']
      split_ifs
      · rfl
      · simp [ha]
    · simp only [m', recordLastState]
      split_ifs <;> simp [ha]
  · rw [hk] at hk'
    cases hk'
    exact ⟨hlen', .inl hmem⟩
  · have := lastOK_record ho.align_self hk hl idx hidx
    omega

theorem allocate_total (ho : Owned p (ms₁ ++ m :: ms₂)) (hp : Private p (ms₁ ++ m :: ms₂))
    (hfits : AlignFits m (m.blocks r).length tm)
    (hcached : r ∈ m.allocatedBlockReqs → numCached m r + specBlocks m.spec ≤ (m.blocks r).length)
    (hfree : newCount m r (m.blocks r).length t tm ≤ p.numFreeBlocks) :
    ∃ p' m' xs, m.allocateNewBlocks p r t tm = .ok (p', m', xs) ∧
      Private p' (ms₁ ++ m' :: ms₂) ∧ Placed m m' r t tm ∧
      p'.numFreeBlocks = p.numFreeBlocks - newCount m r (m.blocks r).length t tm := by
  have hbs : 0 < m.blockSize := m.spec.blockSize_pos
  cases hk : m.spec.kind with
  | mamba mode n =>
    by_cases hmode : mode = .align
    · subst hmode
      have hspec : specBlocks m.spec = n := by simp only [specBlocks, hk]
      simp only [allocateNewBlocks, hk]
      exact alignAllocate_total ho hp hk (hfits n hk) (fun hr => hspec ▸ hcached hr) hfree
    have hcount : newCount m r (m.blocks r).length t tm =
        max (cdiv (t + m.blockSize * n) m.blockSize - (m.blocks r).length) 0 := by
      simp only [newCount, hk]
    simp only [allocateNewBlocks, hk, if_pos hmode]
    rw [hcount] at hfree ⊢
    refine baseAllocate_total ho hp (fun n' h => ?_) (cdiv_mono ?_ hbs) hfree
    · rw [hk] at h
      cases h
      exact hmode rfl
    · exact Int.le_add_of_nonneg_right (by positivity)
  | fullAttention _ | slidingWindow _ | chunkedLocal _ | crossAttention =>
    simp only [newCount, allocateNewBlocks, hk] at hfree ⊢
    exact baseAllocate_total ho hp (fun n' h => by rw [hk] at h; cases h) le_rfl hfree

end allocate

omit [DecidableEq α] in
theorem specBlocks_of_not_align (h : ∀ n, m.spec.kind ≠ .mamba .align n) :
    specBlocks m.spec = 0 := by
  unfold specBlocks
  split
  · rename_i n hk
    exact absurd hk (h n)
  · rfl

theorem Placed.serving {r : α} {t tm : Int} (h : Placed m m' r t tm) (hs : m'.spec = m.spec)
    (ht : m.spec.kind ≠ .crossAttention → tm ≤ t) (hlast : LastOK m r) (hplain : Plain m r)
    (hcached : numCached m r + specBlocks m.spec ≤ (m'.blocks r).length)
    (halloc : ∀ n, m.spec.kind = .mamba .align n →
      ((m.blocks r).length : Int) = cdiv tm m.blockSize + n → r ∈ m.allocatedBlockReqs ∨ n = 0) :
    Serving m' r tm := by
  have hbs : 0 < m.blockSize := m.spec.blockSize_pos
  have hbs' : m'.blockSize = m.blockSize := congrArg KVCacheSpec.blockSize hs
  refine ⟨fun hcross => ?_, ?_, fun n hk => ?_, h.last hlast, fun hn => ?_⟩
  · rw [hs] at hcross ⊢
    rw [hbs']
    by_cases hal : ∃ n, m.spec.kind = .mamba .align n
    · obtain ⟨n, hk⟩ := hal
      have hspec : specBlocks m.spec = n := by simp only [specBlocks, hk]
      have hlen := (h.aligned n hk).1
      rw [hlen, hspec, add_sub_cancel_right]
      exact le_cdiv_mul tm hbs
    have hn : ∀ n, m.spec.kind ≠ .mamba .align n := fun n hk => hal ⟨n, hk⟩
    rw [specBlocks_of_not_align hn]
    have h1 := ht hcross
    have h2 := le_cdiv_mul t hbs
    have h3 : cdiv t m.blockSize * m.blockSize ≤ (m'.blocks r).length * m.blockSize :=
      mul_le_mul_of_nonneg_right (h.enough hn) (by positivity)
    rw [Nat.cast_zero, sub_zero]
    omega
  · rw [hs, numCached, h.cached]
    exact hcached
  · rw [hs] at hk
    rcases (h.aligned n hk).2 with hmem | hlen
    · exact .inl hmem
    · exact (halloc n hk hlen).imp h.keeps id
  · rw [hs] at hn
    rw [(h.plain hn).1, (h.plain hn).2]
    exact hplain hn

theorem Serving.grow {r : α} {g g' : Int} (h : Serving m r g) (h' : Serving m' r g')
    (hs : m'.spec = m.spec) (hlen : (m.blocks r).length ≤ (m'.blocks r).length) :
    Serving m' r (max g g') := by
  refine ⟨fun hc => max_le ?_ (h'.covers hc), h'.cached, h'.allocated, h'.last, h'.plain⟩
  have h1 := h.covers (hs ▸ hc)
  rw [Manager.blockSize, hs]
  refine h1.trans (mul_le_mul_of_nonneg_right ?_ (by positivity))
  omega

end TailBlend.Ownership
