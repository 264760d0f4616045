import TailBlend.Request
import TailBlend.Lib.OrderedDict

/-! The encoder cache: which encoder outputs are held by which requests, and which of them may
be evicted. -/
namespace TailBlend
open OrderedDict

structure EncoderCacheManager (α : Type) where
  cacheSize : Int
  numFreeSlots : Int
  numFreeableSlots : Int
  /-- The requests that reference an output. -/
  cached : Dict String (List α)
  /-- Outputs without references and their sizes, oldest first. -/
  freeable : List (String × Nat)
  freed : List String

namespace EncoderCacheManager
variable {α : Type} [DecidableEq α]

def init (cacheSize : Int) : EncoderCacheManager α where
  cacheSize := cacheSize
  numFreeSlots := cacheSize
  numFreeableSlots := cacheSize
  cached := .empty
  freeable := []
  freed := []

def addHolder (holders : List α) (r : α) : List α := if r ∈ holders then holders else holders ++ [r]

section
variable (m : EncoderCacheManager α)

def checkAndUpdateCache (r : α) (f : MmFeature) : Except PyError (EncoderCacheManager α × Bool) :=
  match m.cached.get? f.identifier with
  | none => .ok (m, false)
  | some [] =>
    match get? m.freeable f.identifier with
    | none => .error .keyError
    | some n => .ok ({ m with
        freeable := erase m.freeable f.identifier
        numFreeableSlots := m.numFreeableSlots - n
        cached := m.cached.set f.identifier [r] }, true)
  | some holders =>
    .ok ({ m with cached := m.cached.set f.identifier (addHolder holders r) }, true)

def evict (numEmbeds : Int) : List (String × Nat) → EncoderCacheManager α →
    Except PyError (EncoderCacheManager α)
  | rest, m =>
    if numEmbeds > m.numFreeSlots then
      match rest with
      | [] => .error .keyError
      | (mmHash, n) :: rest =>
        if m.cached.contains mmHash then
          evict numEmbeds rest { m with
            freeable := rest
            cached := m.cached.erase mmHash
            freed := m.freed ++ [mmHash]
            numFreeSlots := m.numFreeSlots + n }
        else .error .keyError
    else .ok m

def canAllocate (f : MmFeature) (encoderComputeBudget numEmbedsToSchedule : Int) :
    Except PyError (EncoderCacheManager α × Bool) :=
  if f.numEmbeds > encoderComputeBudget then .ok (m, false)
  else
    let numEmbeds := f.numEmbeds + numEmbedsToSchedule
    if numEmbeds ≤ m.numFreeSlots then .ok (m, true)
    else if numEmbeds > m.numFreeableSlots then .ok (m, false)
    else do
      let m ← evict numEmbeds m.freeable m
      return (m, true)

def allocate (r : α) (f : MmFeature) : Except PyError (EncoderCacheManager α) := do
  pyAssert (m.numFreeSlots ≥ f.numEmbeds) ""
  pyAssert (m.numFreeableSlots ≥ f.numEmbeds) ""
  return { m with
    cached := m.cached.set f.identifier (addHolder (m.cached.getD f.identifier []) r)
    numFreeSlots := m.numFreeSlots - f.numEmbeds
    numFreeableSlots := m.numFreeableSlots - f.numEmbeds }

/-- `get_cached_input_ids`, as the inputs themselves. -/
def getCachedInputs (fs : List MmFeature) : List MmFeature :=
  fs.filter (fun f => m.cached.contains f.identifier)

def freeEncoderInput (r : α) (f : MmFeature) : EncoderCacheManager α :=
  match m.cached.get? f.identifier with
  | none | some [] => m
  | some holders =>
    let holders := holders.filter (fun a => a ≠ r)
    let m := { m with cached := m.cached.set f.identifier holders }
    if holders = [] then
      { m with
        freeable := set m.freeable f.identifier f.numEmbeds
        numFreeableSlots := m.numFreeableSlots + f.numEmbeds }
    else m

def free (r : α) (fs : List MmFeature) : EncoderCacheManager α :=
  (m.getCachedInputs fs).foldl (fun m f => m.freeEncoderInput r f) m

def getFreedMmHashes : EncoderCacheManager α × List String :=
  ({ m with freed := [] }, m.freed)

def Holds (r : α) (mmHash : String) : Prop :=
  ∃ holders, m.cached.get? mmHash = some holders ∧ r ∈ holders

/-- What may be evicted is cached and has no references. -/
structure Consistent : Prop where
  unheld : ∀ e ∈ m.freeable, m.cached.get? e.1 = some []
  nodup : (m.freeable.map Prod.fst).Nodup

end

theorem mem_addHolder (holders : List α) (r : α) : r ∈ addHolder holders r := by
  unfold addHolder
  split_ifs with h
  · exact h
  · simp

theorem subset_addHolder {holders : List α} {r a : α} (h : a ∈ holders) :
    a ∈ addHolder holders r := by
  unfold addHolder
  split_ifs
  · exact h
  · simp [h]

section check
variable {m m' : EncoderCacheManager α} {r : α} {f : MmFeature} {hit : Bool}

omit [DecidableEq α] in
theorem Consistent.get?_set (hm : m.Consistent) {x : String} (hx : m.cached.get? x ≠ some [])
    (holders : List α) {e : String × Nat} (he : e ∈ m.freeable) :
    (m.cached.set x holders).get? e.1 = some [] := by
  have hu := hm.unheld e he
  rw [Dict.get?_set_of_ne _ _ (by rintro rfl; exact hx hu), hu]

omit [DecidableEq α] in
theorem consistent_init (cacheSize : Int) : (init cacheSize : EncoderCacheManager α).Consistent :=
  ⟨by simp [init], by simp [init]⟩

/-- Space is allocated for outputs that are not cached. -/
theorem Consistent.allocate (hm : m.Consistent) (hnew : m.cached.get? f.identifier = none)
    (h : m.allocate r f = .ok m') : m'.Consistent := by
  simp only [EncoderCacheManager.allocate, seq_ok_iff] at h
  obtain ⟨-, -, -, -, h⟩ := h
  cases h
  exact ⟨fun e he => hm.get?_set (by simp [hnew]) _ he, hm.nodup⟩

theorem Consistent.freeEncoderInput (hm : m.Consistent) :
    (m.freeEncoderInput r f).Consistent := by
  unfold EncoderCacheManager.freeEncoderInput
  split
  · exact hm
  · exact hm
  rename_i holders hne hget
  have hx : m.cached.get? f.identifier ≠ some [] := by simpa [hget] using hne
  dsimp only
  split_ifs with hnone
  · refine ⟨fun e he => ?_, nodup_keys_set hm.nodup _ _⟩
    have hkey : f.identifier ∉ m.freeable.map Prod.fst := by
      intro hin
      obtain ⟨e, he, heq⟩ := List.mem_map.mp hin
      exact hx (heq ▸ hm.unheld e he)
    rw [OrderedDict.set, if_neg hkey, List.mem_append, List.mem_singleton] at he
    rcases he with he | rfl
    · exact hm.get?_set hx _ he
    · simp only [Dict.get?_set_self, hnone]
  · exact ⟨fun e he => hm.get?_set hx _ he, hm.nodup⟩

theorem checkAndUpdateCache_cases (h : m.checkAndUpdateCache r f = .ok (m', hit)) :
    (hit = false ∧ m' = m ∧ m.cached.get? f.identifier = none) ∨
    (hit = true ∧ ∃ holders holders', m.cached.get? f.identifier = some holders ∧
      m'.cached = m.cached.set f.identifier holders' ∧ r ∈ holders' ∧
      (∀ a ∈ holders, a ∈ holders') ∧
      m'.numFreeSlots = m.numFreeSlots ∧ m'.freed = m.freed ∧
      (holders = [] ∧ m'.freeable = erase m.freeable f.identifier ∨
        holders ≠ [] ∧ m'.freeable = m.freeable)) := by
  unfold checkAndUpdateCache at h
  split at h
  · rename_i hnone
    cases h
    exact .inl ⟨rfl, rfl, hnone⟩
  · rename_i hempty
    split at h
    · cases h
    · cases h
      exact .inr ⟨rfl, [], [r], hempty, rfl, by simp, by simp, rfl, rfl, .inl ⟨rfl, rfl⟩⟩
  · rename_i holders hne hsome
    cases h
    exact .inr ⟨rfl, holders, addHolder holders r, hsome, rfl, mem_addHolder _ _,
      fun a ha => subset_addHolder ha, rfl, rfl, .inr ⟨hne, rfl⟩⟩

theorem Consistent.checkAndUpdateCache (hm : m.Consistent)
    (h : m.checkAndUpdateCache r f = .ok (m', hit)) : m'.Consistent := by
  rcases checkAndUpdateCache_cases h with ⟨-, rfl, -⟩ |
    ⟨-, holders, holders', hget, hcached, -, -, -, -, ⟨-, hfree⟩ | ⟨hne, hfree⟩⟩
  · exact hm
  · refine ⟨fun e he => ?_, ?_⟩
    · rw [hfree] at he
      obtain ⟨he, hid⟩ := List.mem_filter.mp he
      rw [hcached, Dict.get?_set_of_ne _ _ (by simpa using hid)]
      exact hm.unheld e he
    · rw [hfree]
      exact nodup_keys_erase hm.nodup _
  · refine ⟨fun e he => ?_, hfree ▸ hm.nodup⟩
    rw [hfree] at he
    rw [hcached]
    exact hm.get?_set (by simpa [hget] using hne) _ he

theorem holds_of_hit (h : m.checkAndUpdateCache r f = .ok (m', true)) :
    m'.Holds r f.identifier := by
  rcases checkAndUpdateCache_cases h with ⟨hf, -⟩ | ⟨-, holders, holders', -, hcached, hr, -⟩
  · cases hf
  · exact ⟨holders', by rw [hcached, Dict.get?_set_self], hr⟩

theorem Holds.checkAndUpdateCache {a : α} {mmHash : String} (hh : m.Holds a mmHash)
    (h : m.checkAndUpdateCache r f = .ok (m', hit)) : m'.Holds a mmHash := by
  obtain ⟨hs, hget, ha⟩ := hh
  rcases checkAndUpdateCache_cases h with ⟨-, rfl, -⟩ |
    ⟨-, holders, holders', hget', hcached, -, hsub, -⟩
  · exact ⟨hs, hget, ha⟩
  by_cases hid : mmHash = f.identifier
  · subst hid
    rw [hget'] at hget
    cases hget
    exact ⟨holders', by rw [hcached, Dict.get?_set_self], hsub a ha⟩
  · exact ⟨hs, by rw [hcached, Dict.get?_set_of_ne _ _ hid, hget], ha⟩

end check

section evict
variable {m m' : EncoderCacheManager α}

omit [DecidableEq α] in
theorem evict_spec {numEmbeds : Int} {rest : List (String × Nat)} (hm : m.Consistent)
    (hrest : m.freeable = rest) (h : evict numEmbeds rest m = .ok m') :
    m'.Consistent ∧ ∀ a mmHash, m.Holds a mmHash → m'.Holds a mmHash := by
  induction rest generalizing m with
  | nil =>
    unfold evict at h
    split_ifs at h
    cases h
    exact ⟨hm, fun _ _ hh => hh⟩
  | cons e rest ih =>
    unfold evict at h
    split_ifs at h
    · obtain ⟨x, n⟩ := e
      simp only at h
      split_ifs at h
      have hnodup : x ∉ rest.map Prod.fst ∧ (rest.map Prod.fst).Nodup := by
        have := hm.nodup
        rw [hrest, List.map_cons, List.nodup_cons] at this
        exact this
      have hcons : Consistent { m with
          freeable := rest, cached := m.cached.erase x, freed := m.freed ++ [x],
          numFreeSlots := m.numFreeSlots + n } := by
        refine ⟨fun e he => ?_, hnodup.2⟩
        have hne : e.1 ≠ x := fun heq => hnodup.1 (heq ▸ List.mem_map_of_mem he)
        simp only [Dict.get?_erase_of_ne _ hne]
        exact hm.unheld e (by rw [hrest]; exact List.mem_cons_of_mem _ he)
      obtain ⟨hc, hheld⟩ := ih hcons rfl h
      refine ⟨hc, fun a mmHash hh => hheld a mmHash ?_⟩
      obtain ⟨hs, hs', ha⟩ := hh
      have hne : mmHash ≠ x := by
        rintro rfl
        have := hm.unheld (mmHash, n) (by rw [hrest]; simp)
        rw [hs'] at this
        cases this
        simp at ha
      exact ⟨hs, by simp only [Dict.get?_erase_of_ne _ hne, hs'], ha⟩
    · cases h
      exact ⟨hm, fun _ _ hh => hh⟩

omit [DecidableEq α] in
theorem canAllocate_spec {f : MmFeature} {budget embeds : Int} {ok : Bool} (hm : m.Consistent)
    (h : m.canAllocate f budget embeds = .ok (m', ok)) :
    m'.Consistent ∧ ∀ a mmHash, m.Holds a mmHash → m'.Holds a mmHash := by
  have hself : m.Consistent ∧ ∀ a mmHash, m.Holds a mmHash → m.Holds a mmHash :=
    ⟨hm, fun _ _ hh => hh⟩
  unfold canAllocate at h
  simp only at h
  split_ifs at h
  · cases h
    exact hself
  · cases h
    exact hself
  · cases h
    exact hself
  · rw [seq_ok_iff] at h
    obtain ⟨m1, hevict, h⟩ := h
    cases h
    exact evict_spec hm rfl hevict

end evict

/-! What the manager claims to have. -/

def Claims (m : EncoderCacheManager α) (mmHash : String) : Prop := m.cached.contains mmHash = true

/-- Nothing new is claimed, and what is no longer claimed is reported as freed. -/
def Shrinks (m m' : EncoderCacheManager α) : Prop :=
  ∀ mmHash, m'.Claims mmHash → m.Claims mmHash ∧ (mmHash ∈ m'.freed → mmHash ∈ m.freed)

section claims
variable {m m' : EncoderCacheManager α} {r : α} {f : MmFeature}

section
omit [DecidableEq α]

theorem Shrinks.refl (m : EncoderCacheManager α) : m.Shrinks m := fun _ h => ⟨h, id⟩

theorem Shrinks.trans {m'' : EncoderCacheManager α} (h : m.Shrinks m') (h' : m'.Shrinks m'') :
    m.Shrinks m'' := by
  intro mmHash hc
  obtain ⟨hc', hf'⟩ := h' mmHash hc
  obtain ⟨hc'', hf''⟩ := h mmHash hc'
  exact ⟨hc'', fun hf => hf'' (hf' hf)⟩

theorem shrinks_of_same (hkeys : ∀ x, m'.Claims x ↔ m.Claims x) (hfreed : m'.freed = m.freed) :
    m.Shrinks m' := fun x h => ⟨(hkeys x).mp h, fun hf => hfreed ▸ hf⟩

end

theorem shrinks_checkAndUpdateCache {hit : Bool} (h : m.checkAndUpdateCache r f = .ok (m', hit)) :
    m.Shrinks m' := by
  rcases checkAndUpdateCache_cases h with ⟨-, rfl, -⟩ |
    ⟨-, holders, holders', hget, hcached, -, -, -, hfreed, -⟩
  · exact .refl m'
  refine shrinks_of_same (fun x => ?_) hfreed
  rw [Claims, Claims, hcached, Dict.contains_set]
  refine ⟨?_, .inr⟩
  rintro (rfl | h)
  · simp [Dict.contains, hget]
  · exact h

omit [DecidableEq α] in
theorem shrinks_evict {numEmbeds : Int} {rest : List (String × Nat)}
    (h : evict numEmbeds rest m = .ok m') : m.Shrinks m' := by
  induction rest generalizing m with
  | nil =>
    unfold evict at h
    split_ifs at h
    cases h
    exact .refl _
  | cons e rest ih =>
    unfold evict at h
    split_ifs at h
    · obtain ⟨x, n⟩ := e
      simp only at h
      split_ifs at h
      refine Shrinks.trans (fun mmHash hc => ?_) (ih h)
      obtain ⟨hne, hc⟩ := (Dict.contains_erase m.cached x mmHash).mp hc
      exact ⟨hc, fun hf => by simpa [hne] using hf⟩
    · cases h
      exact .refl _

omit [DecidableEq α] in
theorem shrinks_canAllocate {budget embeds : Int} {ok : Bool}
    (h : m.canAllocate f budget embeds = .ok (m', ok)) : m.Shrinks m' := by
  unfold canAllocate at h
  simp only at h
  split_ifs at h
  · cases h
    exact .refl _
  · cases h
    exact .refl _
  · cases h
    exact .refl _
  · rw [seq_ok_iff] at h
    obtain ⟨m1, hevict, h⟩ := h
    cases h
    exact shrinks_evict hevict

theorem allocate_claims (h : m.allocate r f = .ok m') :
    (∀ x, m'.Claims x ↔ x = f.identifier ∨ m.Claims x) ∧ m'.freed = m.freed := by
  simp only [allocate, seq_ok_iff] at h
  obtain ⟨-, -, -, -, h⟩ := h
  cases h
  exact ⟨fun x => Dict.contains_set _ _ _ _, rfl⟩

theorem freeEncoderInput_claims (m : EncoderCacheManager α) (r : α) (f : MmFeature) :
    (∀ x, (m.freeEncoderInput r f).Claims x ↔ m.Claims x) ∧
      (m.freeEncoderInput r f).freed = m.freed := by
  unfold freeEncoderInput
  cases hget : m.cached.get? f.identifier with
  | none => exact ⟨fun _ => Iff.rfl, rfl⟩
  | some holders =>
    have hkeys (l : List α) (x : String) :
        (m.cached.set f.identifier l).contains x = true ↔ m.cached.contains x = true := by
      rw [Dict.contains_set]
      refine ⟨?_, .inr⟩
      rintro (rfl | h)
      · simp [Dict.contains, hget]
      · exact h
    cases holders with
    | nil => exact ⟨fun _ => Iff.rfl, rfl⟩
    | cons a holders =>
      dsimp only
      split_ifs
      · exact ⟨hkeys _, rfl⟩
      · exact ⟨hkeys _, rfl⟩

theorem freeAll_claims (m : EncoderCacheManager α) (r : α) (fs : List MmFeature) :
    (∀ x, (fs.foldl (fun m f => m.freeEncoderInput r f) m).Claims x ↔ m.Claims x) ∧
      (fs.foldl (fun m f => m.freeEncoderInput r f) m).freed = m.freed := by
  induction fs generalizing m with
  | nil => exact ⟨fun _ => Iff.rfl, rfl⟩
  | cons f fs ih =>
    obtain ⟨hk, hf⟩ := freeEncoderInput_claims m r f
    obtain ⟨hk', hf'⟩ := ih (m.freeEncoderInput r f)
    exact ⟨fun x => (hk' x).trans (hk x), hf'.trans hf⟩

end claims
end EncoderCacheManager
end TailBlend
