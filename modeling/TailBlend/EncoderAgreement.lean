import TailBlend.EncoderInputs

/-! The scheduler's choice of encoder inputs covers what the worker looks up, with one exception:
an embedding at the very position that EAGLE's shift adds. -/
namespace TailBlend
open EncoderScan EncoderCacheManager List
variable {α : Type} [DecidableEq α]

namespace EncoderScan

def Avail (r : α) (s : EncoderScan α) (mmHash : String) : Prop :=
  s.cache.Holds r mmHash ∨ mmHash ∈ s.mmHashesToSchedule

def Listed (fs : List MmFeature) (s : EncoderScan α) : Prop :=
  ∀ mmHash ∈ s.mmHashesToSchedule, ∃ i ∈ s.encoderInputsToSchedule ++ s.externalLoadEncoderInput,
    ∃ f, fs[i]? = some f ∧ f.identifier = mmHash

def Splits (cfg : EncoderSettings) (c n : Int) (f : MmFeature) : Prop :=
  cfg.disableChunkedMmInput = true ∧ c < f.offset ∧ c + n < f.offset + f.length

structure Kept (fs : List MmFeature) (r : α) (s s' : EncoderScan α) : Prop where
  consistent : s'.cache.Consistent
  avail : ∀ mmHash, s.Avail r mmHash → s'.Avail r mmHash
  listed : s.Listed fs → s'.Listed fs

/-- An input that was looked at, for a step with tokens, and needs nothing more. -/
def Served (cfg : EncoderSettings) (r : α) (c n : Int) (s : EncoderScan α) (f : MmFeature) : Prop :=
  0 < n →
    f.offset + f.length ≤ c ∨ s.Avail r f.identifier ∨ ¬f.Needed c (c + n) ∧ ¬Splits cfg c n f

section loop
variable {cfg : EncoderSettings} {r : α} {c n shift : Int} {fs₀ : List MmFeature}
  {s s' : EncoderScan α} {i : Nat} {f : MmFeature}

section
omit [DecidableEq α]

theorem Kept.refl (h : s.cache.Consistent) : Kept fs₀ r s s := ⟨h, fun _ ha => ha, fun hl => hl⟩

theorem Kept.trans {s1 s2 : EncoderScan α} (h : Kept fs₀ r s s1) (h' : Kept fs₀ r s1 s2) :
    Kept fs₀ r s s2 :=
  ⟨h'.consistent, fun x hx => h'.avail x (h.avail x hx), fun hl => h'.listed (h.listed hl)⟩

theorem Served.mono (h : Served cfg r c n s f) (hk : Kept fs₀ r s s') : Served cfg r c n s' f := by
  intro hn
  rcases h hn with h | h | h
  · exact .inl h
  · exact .inr (.inl (hk.avail _ h))
  · exact .inr (.inr h)

end

theorem checkCached_spec (fs₀ : List MmFeature) (hdec : cfg.isEncoderDecoder = false)
    (hs : s.cache.Consistent) {hit : Bool} (h : s.checkCached cfg r f = .ok (s', hit)) :
    Kept fs₀ r s s' ∧ (hit = true → s'.Avail r f.identifier) := by
  unfold checkCached at h
  rw [if_neg (by simp [hdec])] at h
  split_ifs at h with hmem
  · cases h
    exact ⟨.refl hs, fun _ => .inr hmem⟩
  rw [seq_ok_iff] at h
  obtain ⟨⟨cache, hit'⟩, hcheck, h⟩ := h
  cases h
  refine ⟨⟨hs.checkAndUpdateCache hcheck, fun x hx => ?_, fun hl => hl⟩, fun ht => ?_⟩
  · rcases hx with hx | hx
    · exact .inl (hx.checkAndUpdateCache hcheck)
    · exact .inr hx
  · subst ht
    exact .inl (holds_of_hit hcheck)

omit [DecidableEq α] in
theorem kept_of_added (hs : s.cache.Consistent) (hi : fs₀[i]? = some f)
    (hcache : s'.cache = s.cache)
    (hhash : s'.mmHashesToSchedule = s.mmHashesToSchedule ++ [f.identifier])
    (hnew : i ∈ s'.encoderInputsToSchedule ++ s'.externalLoadEncoderInput)
    (hold : ∀ j ∈ s.encoderInputsToSchedule ++ s.externalLoadEncoderInput,
      j ∈ s'.encoderInputsToSchedule ++ s'.externalLoadEncoderInput) :
    Kept fs₀ r s s' ∧ s'.Avail r f.identifier := by
  refine ⟨⟨hcache ▸ hs, fun x hx => ?_, fun hl x hx => ?_⟩, .inr (by simp [hhash])⟩
  · rw [Avail, hcache, hhash]
    exact hx.imp id (fun h => mem_append_left _ h)
  rw [hhash] at hx
  rcases mem_append.mp hx with hx | hx
  · obtain ⟨j, hj, hf⟩ := hl x hx
    exact ⟨j, hold j hj, hf⟩
  · exact ⟨i, hnew, f, hi, (mem_singleton.mp hx).symm⟩

omit [DecidableEq α] in
theorem schedule_spec (cfg : EncoderSettings) (hs : s.cache.Consistent) (hi : fs₀[i]? = some f) :
    Kept fs₀ r s (s.schedule cfg i f) ∧ (s.schedule cfg i f).Avail r f.identifier := by
  unfold schedule
  split_ifs
  · exact kept_of_added hs hi rfl rfl (by simp) (fun j hj => by
      simp only [mem_append] at hj ⊢
      tauto)
  · exact kept_of_added hs hi rfl rfl (by simp) (fun j hj => by
      simp only [mem_append] at hj ⊢
      tauto)

def Stopped (c n shift : Int) (f : MmFeature) (n' : Int) : Prop :=
  n' = n ∧ c + n + shift ≤ f.offset ∨
    f.offset < c + n + shift ∧ n' = max 0 (f.offset - (c + shift))

theorem step_spec (hdec : cfg.isEncoderDecoder = false) (hs : s.cache.Consistent)
    (hshift : 0 ≤ shift ∧ shift ≤ 1) (hi : fs₀[i]? = some f) {next : EncoderNext α}
    (h : s.step cfg r c n shift i f = .ok next) :
    (∃ s', next = .goOn s' ∧ Kept fs₀ r s s' ∧ f.offset < c + n + shift ∧
      Served cfg r c n s' f) ∨
    (∃ s' n', next = .stop s' n' ∧ Kept fs₀ r s s' ∧ Stopped c n shift f n') := by
  unfold step at h
  by_cases hbreak : f.offset ≥ c + n + shift
  · rw [if_pos hbreak] at h
    cases h
    exact Or.inr ⟨s, n, rfl, .refl hs, Or.inl ⟨rfl, hbreak⟩⟩
  rw [if_neg hbreak, if_neg (by simp [hdec])] at h
  by_cases hdone : (f.offset + f.length : Int) ≤ c
  · rw [if_pos hdone] at h
    cases h
    exact Or.inl ⟨s, rfl, .refl hs, by omega, fun _ => Or.inl hdone⟩
  rw [if_neg hdone, seq_ok_iff] at h
  obtain ⟨⟨s1, hit⟩, hcheck, h⟩ := h
  obtain ⟨hk1, hhit⟩ := checkCached_spec fs₀ hdec hs hcheck
  simp only at h
  by_cases ht : hit = true
  · rw [if_pos ht] at h
    cases h
    exact Or.inl ⟨s1, rfl, hk1, by omega, fun _ => Or.inr (Or.inl (hhit ht))⟩
  rw [if_neg ht] at h
  by_cases hsplit : Splits cfg c n f
  · rw [if_pos (by exact hsplit)] at h
    cases h
    exact .inr ⟨s1, _, rfl, hk1, .inr ⟨by omega, rfl⟩⟩
  rw [if_neg (by exact hsplit), seq_ok_iff] at h
  obtain ⟨⟨cache, fits⟩, halloc, h⟩ := h
  obtain ⟨hc, hheld⟩ := canAllocate_spec hk1.consistent halloc
  have hk2 : Kept fs₀ r s { s1 with cache := cache } :=
    hk1.trans ⟨hc, fun x hx => hx.imp (hheld r x) id, fun hl => hl⟩
  simp only at h
  by_cases hfits : fits = false
  · rw [if_pos hfits] at h
    split_ifs at h with hroom
    · cases h
      exact Or.inr ⟨_, _, rfl, hk2, Or.inr ⟨by omega, by omega⟩⟩
    · cases h
      exact Or.inr ⟨_, _, rfl, hk2, Or.inr ⟨by omega, by omega⟩⟩
  rw [if_neg hfits] at h
  split_ifs at h with hempty
  · cases h
    refine .inl ⟨_, rfl, hk2, by omega, fun hn => .inr (.inr ⟨?_, hsplit⟩)⟩
    have hneed := f.range_eq_iff (a := c) (b := c + n) (by omega)
    rw [max_comm, min_comm] at hneed
    exact hneed.mp (by omega)
  · cases h
    have hk3 : Kept fs₀ r { s1 with cache := cache } _ ∧ _ := schedule_spec cfg hk2.consistent hi
    exact .inl ⟨_, rfl, hk2.trans hk3.1, by omega, fun _ => .inr (.inl hk3.2)⟩

/-- How the loop ends on the inputs `fs`: all of them that start in reach are served, or the
step ends before one of them and those before it are served. -/
def Outcome (cfg : EncoderSettings) (r : α) (c n shift : Int) (fs : List MmFeature)
    (s : EncoderScan α) (n' : Int) : Prop :=
  n' = n ∧ (∀ f ∈ fs, f.offset < c + n + shift → Served cfg r c n s f) ∨
    ∃ pre f post, fs = pre ++ f :: post ∧ f.offset < c + n + shift ∧
      n' = max 0 (f.offset - (c + shift)) ∧ ∀ g ∈ pre, Served cfg r c n s g

theorem loop_spec (fs₀ : List MmFeature) (hdec : cfg.isEncoderDecoder = false)
    (hs : s.cache.Consistent) (hshift : 0 ≤ shift ∧ shift ≤ 1) {fs : List MmFeature}
    (hfs : fs₀.drop i = fs)
    (hsorted : fs.Pairwise (fun f g => f.offset ≤ g.offset)) {n' : Int}
    (h : loop cfg r c n shift fs i s = .ok (s', n')) :
    Kept fs₀ r s s' ∧ Outcome cfg r c n shift fs s' n' := by
  induction fs generalizing s i with
  | nil =>
    cases h
    exact ⟨.refl hs, .inl ⟨rfl, by simp⟩⟩
  | cons f fs ih =>
    have hi : fs₀[i]? = some f := by rw [← head?_drop, hfs]; rfl
    have hrest : fs₀.drop (i + 1) = fs := by rw [← tail_drop, hfs]; rfl
    rw [pairwise_cons] at hsorted
    unfold loop at h
    rw [seq_ok_iff] at h
    obtain ⟨next, hstep, h⟩ := h
    rcases step_spec hdec hs hshift hi hstep with
      ⟨s1, rfl, hk, hreach, hserved⟩ | ⟨s1, n1, rfl, hk, hstop⟩
    · obtain ⟨hk', hout⟩ := ih hk.consistent hrest hsorted.2 h
      have hserved' := hserved.mono hk'
      refine ⟨hk.trans hk', ?_⟩
      rcases hout with ⟨rfl, hall⟩ | ⟨pre, g, post, rfl, hg, hn', hpre⟩
      · refine .inl ⟨rfl, fun g hg hr => ?_⟩
        rcases mem_cons.mp hg with rfl | hg
        · exact hserved'
        · exact hall g hg hr
      refine .inr ⟨f :: pre, g, post, rfl, hg, hn', fun x hx => ?_⟩
      rcases mem_cons.mp hx with rfl | hx
      · exact hserved'
      · exact hpre x hx
    cases h
    refine ⟨hk, ?_⟩
    rcases hstop with ⟨rfl, hfar⟩ | ⟨hnear, hn'⟩
    · refine .inl ⟨rfl, fun g hg hr => ?_⟩
      rcases mem_cons.mp hg with rfl | hg
      · omega
      · have := hsorted.1 g hg
        omega
    · exact .inr ⟨[], f, fs, rfl, hnear, hn', by simp⟩

end loop
end EncoderScan

/-! The worker. -/

def encoderCacheMiss (mmHash : String) : PyError :=
  .assertionError s!"Encoder cache miss for {mmHash}."

theorem encoderCacheMiss_ne (mmHash : String) : encoderCacheMiss mmHash ≠ .assertionError "" := by
  intro h
  have hlen := congrArg String.length (PyError.assertionError.inj h)
  exact absurd hlen (by simp [toString])

/-- The loop comes to an input that the range needs and whose output is missing. An empty range
beyond `c` would stop it before. -/
def Misses (encoderCache : String → Bool) (c n : Int) (fs : List MmFeature) : Prop :=
  ∃ pre f post, fs = pre ++ f :: post ∧ f.Needed c (c + n) ∧ encoderCache f.identifier = false ∧
    ∀ g ∈ pre, g.length = 0 → (g.offset : Int) ≤ c

section worker
variable {encoderCache : String → Bool} {c n : Int} {f : MmFeature} {fs : List MmFeature}

theorem misses_cons : Misses encoderCache c n (f :: fs) ↔
    f.Needed c (c + n) ∧ encoderCache f.identifier = false ∨
      (f.length = 0 → (f.offset : Int) ≤ c) ∧ Misses encoderCache c n fs := by
  constructor
  · rintro ⟨pre, g, post, hfs, hneed, hmiss, hpre⟩
    cases pre with
    | nil =>
      cases hfs
      exact .inl ⟨hneed, hmiss⟩
    | cons x pre =>
      cases hfs
      exact .inr ⟨hpre _ mem_cons_self, pre, g, post, rfl, hneed, hmiss,
        fun y hy => hpre y (mem_cons_of_mem _ hy)⟩
  · rintro (⟨hneed, hmiss⟩ | ⟨hf, pre, g, post, rfl, hneed, hmiss, hpre⟩)
    · exact ⟨[], f, fs, rfl, hneed, hmiss, by simp⟩
    · exact ⟨f :: pre, g, post, rfl, hneed, hmiss, forall_mem_cons.mpr ⟨hf, hpre⟩⟩

theorem gather_miss_iff (hn : 0 < n) (hsorted : fs.Pairwise (fun f g => f.offset ≤ g.offset)) :
    (∃ mmHash, gatherMmEmbeddings encoderCache c n fs = .error (encoderCacheMiss mmHash)) ↔
      Misses encoderCache c n fs := by
  induction fs with
  | nil => simp [gatherMmEmbeddings, Misses]
  | cons f fs ih =>
    rw [pairwise_cons] at hsorted
    have ih' := ih hsorted.2
    unfold gatherMmEmbeddings
    by_cases hbreak : f.offset ≥ c + n
    · rw [if_pos hbreak]
      refine iff_of_false (by simp) ?_
      rintro ⟨pre, g, post, hfs, ⟨x, h1, h2, h3, -⟩, -⟩
      have hg : g ∈ f :: fs := hfs ▸ by simp
      rcases mem_cons.mp hg with rfl | hg
      · omega
      · have := hsorted.1 g hg
        omega
    rw [if_neg hbreak, misses_cons]
    by_cases hdone : (f.offset + f.length : Int) ≤ c
    · have hno : ¬f.Needed c (c + n) := by
        rintro ⟨x, h1, -, -, h4, -⟩
        omega
      have hpast : (f.offset : Int) ≤ c := by omega
      rw [if_pos hdone, ih']
      simp [hno, hpast]
    rw [if_neg hdone]
    have hneed := f.range_eq_iff (a := c) (b := c + n) (by omega)
    rw [show c + n - (f.offset : Int) = c - f.offset + n by ring] at hneed
    by_cases hempty : f.length = 0
    · -- an empty range beyond `c` trips the other assertion
      have hrange : ¬max (c - f.offset) 0 < min (c - f.offset + n) (f.length : Int) := by omega
      have hno : ¬f.Needed c (c + n) := by
        rintro ⟨x, -, -, h3, h4, -⟩
        omega
      have hbeyond : ¬(f.offset : Int) ≤ c := by omega
      simp only [pyAssert, if_neg hrange]
      refine iff_of_false ?_ (by simp [hno, hempty, hbeyond])
      rintro ⟨mmHash, h⟩
      exact encoderCacheMiss_ne mmHash (Except.error.inj h).symm
    have hrange : max (c - f.offset) 0 < min (c - f.offset + n) (f.length : Int) := by omega
    simp only [pyAssert, if_pos hrange]
    by_cases hsame : (f.getEmbedsIndicesInRange (max (c - f.offset) 0)
        (min (c - f.offset + n) f.length)).1 = (f.getEmbedsIndicesInRange (max (c - f.offset) 0)
        (min (c - f.offset + n) f.length)).2
    · have hno := hneed.mp hsame
      simpa [bind, Except.bind, hsame, hno, hempty] using ih'
    have hf : f.Needed c (c + n) := not_not.mp (fun hno => hsame (hneed.mpr hno))
    cases hhas : encoderCache f.identifier with
    | false => simpa [hsame, hf] using ⟨f.identifier, rfl⟩
    | true =>
      rw [← ih']
      simp only [bind, Except.bind, hsame]
      cases gatherMmEmbeddings encoderCache c n fs <;> simp [hempty, pure, Except.pure]

end worker

/-- The outputs that are in the worker's cache for request `req` in a step: those it holds a
reference to, and those that the step computes or loads. -/
def workerCache (m : EncoderCacheManager α) (req : Request α) (plan : EncoderPlan)
    (mmHash : String) : Bool :=
  (m.cached.get? mmHash).any (fun holders => req.requestId ∈ holders) ||
    (plan.inputs ++ plan.externalInputs).any
      (fun i => (req.mmFeatures[i]?).any (fun f => f.identifier = mmHash))

/-- Whatever the encoder cache and the budget, the worker misses no output in the step that the
scheduler decides on: with EAGLE it looks again, one position further. -/
def EncoderInputsAgree (cfg : EncoderSettings) (req : Request α) (c n : Int) (eagle : Bool) : Prop :=
  ∀ m : EncoderCacheManager α, m.Consistent → ∀ budget m' plan,
    tryScheduleEncoderInputs cfg m req c n budget (if eagle then 1 else 0) = .ok (m', plan) →
    0 < plan.numNewTokens → ∀ shift ∈ if eagle then [(0 : Int), 1] else [0], ∀ mmHash,
      gatherMmEmbeddings (workerCache m' req plan) (c + shift) plan.numNewTokens
        req.mmFeatures ≠ .error (encoderCacheMiss mmHash)

/-- The position right behind the step takes an embedding of an input that the step needs at no
other position, nor any input with the same output; and none of them makes the step end
earlier. -/
def LateEmbed (cfg : EncoderSettings) (fs : List MmFeature) (c n : Int) : Prop :=
  0 < n ∧ ∃ pre f post, fs = pre ++ f :: post ∧ f.EmbedAt (c + n) ∧
    (∀ g ∈ pre, g.length = 0 → (g.offset : Int) ≤ c + 1) ∧
    ∀ g ∈ fs, g.identifier = f.identifier → g.offset ≤ c + n →
      ¬g.Needed c (c + n) ∧ ¬Splits cfg c n g

section agreement
variable {cfg : EncoderSettings} {req : Request α} {c n : Int} {eagle : Bool}

variable {s : EncoderScan α}

theorem workerCache_of_avail {mmHash : String} {k : Int} (hl : s.Listed req.mmFeatures)
    (h : s.Avail req.requestId mmHash) :
    workerCache s.cache req ⟨s.encoderInputsToSchedule, k, s.encoderComputeBudget,
      s.externalLoadEncoderInput⟩ mmHash = true := by
  rw [workerCache, Bool.or_eq_true]
  rcases h with ⟨holders, hget, hmem⟩ | h
  · exact .inl (by simp [hget, hmem])
  · obtain ⟨i, hi, f, hf, hid⟩ := hl mmHash h
    exact .inr (any_eq_true.mpr ⟨i, hi, by simp [hf, hid]⟩)

omit [DecidableEq α] in
theorem avail_of_needed (hno : ¬(eagle = true ∧ LateEmbed cfg req.mmFeatures c n))
    (hsorted : req.mmFeatures.Pairwise (fun f g => f.offset ≤ g.offset)) {n' shift : Int}
    (hpos : 0 < n') (hshift : 0 ≤ shift ∧ shift ≤ if eagle then 1 else 0)
    (hout : Outcome cfg req.requestId c n (if eagle then 1 else 0) req.mmFeatures s n')
    {pre post : List MmFeature} {f : MmFeature} (hf : req.mmFeatures = pre ++ f :: post)
    (hpre : ∀ g ∈ pre, g.length = 0 → (g.offset : Int) ≤ c + shift)
    (hneed : f.Needed (c + shift) (c + shift + n')) : s.Avail req.requestId f.identifier := by
  have hmem : f ∈ req.mmFeatures := hf ▸ by simp
  set last : Int := if eagle = true then 1 else 0 with hlast
  obtain ⟨x, hx1, hx2, hx⟩ := hneed
  have hin : f.offset ≤ x ∧ x < f.offset + f.length := ⟨hx.1, hx.2.1⟩
  rcases hout with ⟨rfl, hall⟩ | ⟨pre', g, post', hfs, hg, rfl, hserved⟩
  · rcases hall f hmem (by omega) hpos with h | h | ⟨hnot, -⟩
    · omega
    · exact h
    -- the shifted range sees one position more, and only there
    have hx' : x = c + n' := by
      by_contra hne
      exact hnot ⟨x, by omega, by omega, hx⟩
    have heagle : eagle = true := by
      by_contra hne
      rw [if_neg hne] at hlast
      omega
    by_contra havail
    refine hno ⟨heagle, hpos, pre, f, post, hf, hx' ▸ hx, fun g hg h0 => ?_,
      fun g hg hid hoff => ?_⟩
    · have := hpre g hg h0
      omega
    rw [if_pos heagle] at hlast
    rcases hall g hg (by omega) hpos with hdone | hav | hserved
    · refine ⟨?_, ?_⟩
      · rintro ⟨y, hy, -, -, hy', -⟩
        omega
      · rintro ⟨-, hlt, -⟩
        omega
    · rw [hid] at hav
      exact (havail hav).elim
    · exact hserved
  · -- the step ends where the shifted range reaches the input it could not take
    have hbefore : f ∈ pre' := by
      rw [hfs] at hmem hsorted
      rw [pairwise_append, pairwise_cons] at hsorted
      rcases mem_append.mp hmem with h | h
      · exact h
      rcases mem_cons.mp h with rfl | h
      · omega
      · have := hsorted.2.1.1 f h
        omega
    rcases hserved f hbefore (by omega) with h | h | ⟨hnot, -⟩
    · omega
    · exact h
    · exact (hnot ⟨x, by omega, by omega, hx⟩).elim

theorem agree_of_not_late (hdec : cfg.isEncoderDecoder = false)
    (hsorted : req.mmFeatures.Pairwise (fun f g => f.offset ≤ g.offset))
    (hno : ¬(eagle = true ∧ LateEmbed cfg req.mmFeatures c n)) :
    EncoderInputsAgree cfg req c n eagle := by
  intro m hm budget m' plan he hpos shift hshift mmHash hmiss
  obtain ⟨pre, f, post, hf, hneed, hlost, hpre⟩ := (gather_miss_iff hpos hsorted).mp ⟨_, hmiss⟩
  have hle : 0 ≤ shift ∧ shift ≤ if eagle then 1 else 0 := by
    cases eagle <;> simp at hshift ⊢ <;> omega
  have hone : 0 ≤ (if eagle = true then (1 : Int) else 0) ∧
      (if eagle = true then (1 : Int) else 0) ≤ 1 := by cases eagle <;> simp
  unfold tryScheduleEncoderInputs at he
  by_cases hskip : n = 0 ∨ req.hasEncoderInputs = false
  · rw [if_pos hskip] at he
    cases he
    rcases hskip with h0 | hnone
    · simp only at hpos
      omega
    · rw [Request.hasEncoderInputs, Bool.not_eq_false', List.isEmpty_iff] at hnone
      simp [hnone] at hf
  rw [if_neg hskip, seq_ok_iff] at he
  obtain ⟨⟨s, n'⟩, hloop, he⟩ := he
  cases he
  obtain ⟨hk, hout⟩ := loop_spec req.mmFeatures hdec hm hone (drop_zero) hsorted hloop
  have hlisted : s.Listed req.mmFeatures := hk.listed (by
    intro x hx
    simp at hx)
  have havail := avail_of_needed hno hsorted hpos hle hout hf hpre hneed
  rw [workerCache_of_avail hlisted havail] at hlost
  cases hlost

/-! An encoder cache that holds everything but one output. -/

theorem exists_dict {β : Type} (l : List String) (v : β) :
    ∃ d : Dict String β, ∀ x, d.get? x = if x ∈ l then some v else none := by
  induction l with
  | nil => exact ⟨.empty, by simp⟩
  | cons a l ih =>
    obtain ⟨d, hd⟩ := ih
    refine ⟨d.set a v, fun x => ?_⟩
    rw [Dict.get?_set, hd]
    by_cases hx : x = a <;> simp [hx]

/-- The loop has listed nothing, and its cache holds the outputs `l` for `r`. -/
structure Idle (r : α) (l : List String) (room : Int) (s : EncoderScan α) : Prop where
  hashes : s.mmHashesToSchedule = []
  inputs : s.encoderInputsToSchedule = []
  external : s.externalLoadEncoderInput = []
  budget : s.encoderComputeBudget = room
  embeds : s.numEmbedsToSchedule = 0
  free : s.cache.numFreeSlots = room
  cached : ∀ x, s.cache.cached.get? x = if x ∈ l then some [r] else none

section
variable (hdec : cfg.isEncoderDecoder = false)
include hdec

theorem step_idle {r : α} {l : List String} {room : Int} {i : Nat} {f : MmFeature}
    (hs : Idle r l room s) (hn : 0 < n)
    (hroom : f.numEmbeds ≤ room)
    (hmiss : f.identifier ∉ l → f.offset ≤ c + n → ¬f.Needed c (c + n) ∧ ¬Splits cfg c n f) :
    (∃ s', s.step cfg r c n 1 i f = .ok (.goOn s') ∧ Idle r l room s') ∨
      s.step cfg r c n 1 i f = .ok (.stop s n) := by
  unfold step
  by_cases hbreak : f.offset ≥ c + n + 1
  · exact .inr (if_pos hbreak)
  rw [if_neg hbreak, if_neg (by simp [hdec])]
  by_cases hdone : (f.offset + f.length : Int) ≤ c
  · exact .inl ⟨s, if_pos hdone, hs⟩
  rw [if_neg hdone]
  have hget := hs.cached f.identifier
  have hunlisted : f.identifier ∉ s.mmHashesToSchedule := by simp [hs.hashes]
  by_cases hin : f.identifier ∈ l
  · rw [if_pos hin] at hget
    have hhit : s.cache.checkAndUpdateCache r f = .ok ({ s.cache with
        cached := s.cache.cached.set f.identifier [r] }, true) := by
      rw [checkAndUpdateCache, hget]
      simp [addHolder]
    have hcheck : s.checkCached cfg r f = .ok ({ s with cache := { s.cache with
        cached := s.cache.cached.set f.identifier [r] } }, true) := by
      rw [checkCached, if_neg (by simp [hdec]), if_neg hunlisted, hhit]
      rfl
    rw [hcheck]
    refine .inl ⟨_, rfl, ⟨hs.hashes, hs.inputs, hs.external, hs.budget,
      hs.embeds, hs.free, fun x => ?_⟩⟩
    simp only [Dict.get?_set, hs.cached]
    by_cases hx : x = f.identifier <;> simp [hx, hin]
  · obtain ⟨hnot, hsplit⟩ := hmiss hin (by omega)
    rw [if_neg hin] at hget
    have hhit : s.cache.checkAndUpdateCache r f = .ok (s.cache, false) := by
      rw [checkAndUpdateCache, hget]
    have hcheck : s.checkCached cfg r f = .ok (s, false) := by
      rw [checkCached, if_neg (by simp [hdec]), if_neg hunlisted, hhit]
      rfl
    have hfits : s.cache.canAllocate f s.encoderComputeBudget s.numEmbedsToSchedule =
        .ok (s.cache, true) := by
      rw [canAllocate, hs.budget, hs.embeds, hs.free, if_neg (by omega)]
      rw [if_pos (by omega)]
    have hneed := f.range_eq_iff (a := c) (b := c + n) (by omega)
    rw [max_comm, min_comm] at hneed
    have hempty := hneed.mpr hnot
    refine .inl ⟨s, ?_, hs⟩
    rw [hcheck]
    simp only [bind, Except.bind]
    rw [if_neg (by simp), if_neg (by exact hsplit), hfits]
    simp only
    rw [if_neg (by simp), if_pos (by omega)]
    rfl

theorem loop_idle {r : α} {l : List String} {room : Int}
    (hn : 0 < n) {fs : List MmFeature} (hroom : ∀ f ∈ fs, (f.numEmbeds : Int) ≤ room)
    (hmiss : ∀ f ∈ fs, f.identifier ∉ l → f.offset ≤ c + n → ¬f.Needed c (c + n) ∧
      ¬Splits cfg c n f) (hs : Idle r l room s) (i : Nat) :
    ∃ s', loop cfg r c n 1 fs i s = .ok (s', n) ∧ Idle r l room s' := by
  induction fs generalizing s i with
  | nil => exact ⟨s, rfl, hs⟩
  | cons f fs ih =>
    have hf := step_idle (i := i) hdec hs hn (hroom f mem_cons_self)
      (hmiss f mem_cons_self)
    unfold loop
    rcases hf with ⟨s1, hstep, hs1⟩ | hstep
    · rw [hstep]
      exact ih (fun g hg => hroom g (mem_cons_of_mem _ hg))
        (fun g hg => hmiss g (mem_cons_of_mem _ hg)) hs1 (i + 1)
    · rw [hstep]
      exact ⟨s, rfl, hs⟩

theorem not_agree_of_late
    (hsorted : req.mmFeatures.Pairwise (fun f g => f.offset ≤ g.offset))
    (hlate : LateEmbed cfg req.mmFeatures c n) : ¬EncoderInputsAgree cfg req c n true := by
  obtain ⟨hn, pre, f, post, hfs, hembed, hpre, hsame⟩ := hlate
  intro hagree
  -- everything is cached but the output of `f`, and there is room for all of them
  obtain ⟨d, hd⟩ := exists_dict
    ((req.mmFeatures.map (·.identifier)).filter (· ≠ f.identifier)) [req.requestId]
  let room : Int := ((req.mmFeatures.map (·.numEmbeds)).sum : Nat)
  let m : EncoderCacheManager α := ⟨room, room, room, d, [], []⟩
  have hidle : Idle req.requestId ((req.mmFeatures.map (·.identifier)).filter (· ≠ f.identifier))
      room ⟨m, room, [], 0, [], []⟩ := ⟨rfl, rfl, rfl, rfl, rfl, rfl, hd⟩
  have hroom (g : MmFeature) (hg : g ∈ req.mmFeatures) : (g.numEmbeds : Int) ≤ room := by
    have := single_le_sum (l := req.mmFeatures.map (·.numEmbeds)) (by simp) g.numEmbeds
      (mem_map_of_mem hg)
    exact Int.ofNat_le.mpr this
  obtain ⟨s, hloop, hs⟩ := loop_idle hdec hn hroom (fun g hg hid => hsame g hg (by
    by_contra hne
    exact hid (by simpa [hne] using ⟨g, hg, rfl⟩))) hidle 0
  have htry : tryScheduleEncoderInputs cfg m req c n room 1 = .ok (s.cache,
      ⟨s.encoderInputsToSchedule, n, s.encoderComputeBudget, s.externalLoadEncoderInput⟩) := by
    rw [tryScheduleEncoderInputs, if_neg (by simp [Request.hasEncoderInputs, hfs, hn.ne']), hloop]
    rfl
  have hlost : workerCache s.cache req ⟨s.encoderInputsToSchedule, n, s.encoderComputeBudget,
      s.externalLoadEncoderInput⟩ f.identifier = false := by
    simp [workerCache, hs.inputs, hs.external, hs.cached]
  obtain ⟨mmHash, hmiss⟩ := (gather_miss_iff hn hsorted).mpr ⟨pre, f, post, hfs,
    ⟨c + n, by omega, by omega, hembed⟩, hlost, hpre⟩
  exact hagree m ⟨by simp [m], by simp [m]⟩ room _ _ htry hn 1 (by simp) mmHash hmiss

end

/-- The scheduler and the worker agree on the encoder inputs of a decoder-only model, with the
one exception. -/
theorem encoderInputsAgree_iff (cfg : EncoderSettings) (hdec : cfg.isEncoderDecoder = false)
    (req : Request α) (hsorted : req.mmFeatures.Pairwise (fun f g => f.offset ≤ g.offset))
    (c n : Int) (eagle : Bool) :
    EncoderInputsAgree cfg req c n eagle ↔
      ¬(eagle = true ∧ LateEmbed cfg req.mmFeatures c n) := by
  constructor
  · rintro hagree ⟨rfl, hlate⟩
    exact not_agree_of_late hdec hsorted hlate hagree
  · exact agree_of_not_late hdec hsorted

end agreement

/-! A prompt whose positions from 2 on take an image of two embeddings. -/

def MmFeature.image (offset length : Nat) : MmFeature := ⟨"image", offset, length, none, by simp⟩

def Request.withImage (offset length : Nat) : Request Nat :=
  Request.new ⟨0, none, 0, 0, .sampling ⟨0, none, [], [], none⟩ 1 false, none,
    .tokens [1, 2, 7, 7], none, [.image offset length], none, false, false⟩

def EncoderSettings.chunked : EncoderSettings := ⟨false, false, fun _ => false⟩

/-- A step up to the image leaves it out, and EAGLE's second look asks for it. -/
theorem image_behind_step : ¬EncoderInputsAgree .chunked (.withImage 2 2) 0 2 true := by
  intro h
  have htry : tryScheduleEncoderInputs .chunked (.init 8) (.withImage 2 2) 0 2 8 1 =
      .ok (.init 8, ⟨[], 2, 8, []⟩) := rfl
  exact h (.init 8) ⟨by simp [init], by simp [init]⟩ 8 _ _
    htry (by decide) 1 (by decide) "image" rfl

/-- A step into the image computes it. -/
theorem image_within_step : EncoderInputsAgree .chunked (.withImage 2 2) 0 3 true := by
  refine (encoderInputsAgree_iff .chunked rfl (.withImage 2 2) (by decide) 0 3 true).mpr ?_
  rintro ⟨-, -, pre, f, post, hfs, -, -, hsame⟩
  have hf : f ∈ (Request.withImage 2 2).mmFeatures := hfs ▸ by simp
  obtain rfl : f = .image 2 2 := mem_singleton.mp hf
  exact (hsame _ hf rfl (by decide)).1
    ⟨2, by decide, by decide, by decide, by decide, by simp [MmFeature.image]⟩
end TailBlend
