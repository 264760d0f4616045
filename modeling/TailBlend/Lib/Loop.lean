import TailBlend.Lib.Py

/-! Fuelled loops over a state whose body may raise and says whether to go on. -/
namespace TailBlend.Loop
variable {σ : Type} {ε : Type*}

def run (body : σ → Except ε (σ × Bool)) : Nat → σ → Except ε σ
  | 0, s => .ok s
  | fuel + 1, s => do
    let (s, more) ← body s
    if more then run body fuel s else return s

/-- Every state in which the body is entered meets `Q`. -/
def Meets (body : σ → Except ε (σ × Bool)) (Q : σ → Prop) : Nat → σ → Prop
  | 0, _ => True
  | fuel + 1, s => Q s ∧ ∀ s', body s = .ok (s', true) → Meets body Q fuel s'

variable {body : σ → Except ε (σ × Bool)}

theorem meets_of_forall {Q : σ → Prop} (hQ : ∀ s, Q s) (fuel : Nat) (s : σ) :
    Meets body Q fuel s := by
  induction fuel generalizing s with
  | zero => trivial
  | succ fuel ih => exact ⟨hQ s, fun s' _ => ih s'⟩

theorem run_succ {fuel : Nat} {s s' : σ} (h : run body (fuel + 1) s = .ok s') :
    body s = .ok (s', false) ∨ ∃ mid, body s = .ok (mid, true) ∧ run body fuel mid = .ok s' := by
  simp only [run, seq_ok_iff] at h
  obtain ⟨⟨mid, more⟩, hbody, hrest⟩ := h
  cases more with
  | false =>
    obtain rfl : mid = s' := Except.ok.inj hrest
    exact .inl hbody
  | true => exact .inr ⟨mid, hbody, hrest⟩

/-- The invariant rule; the body may use what holds where it is entered. -/
theorem run_induct {I Q : σ → Prop}
    (hbody : ∀ s s' more, I s → Q s → body s = .ok (s', more) → I s') {fuel : Nat} {s s' : σ}
    (hI : I s) (hQ : Meets body Q fuel s) (hrun : run body fuel s = .ok s') : I s' := by
  induction fuel generalizing s with
  | zero =>
    obtain rfl : s = s' := by simpa [run] using hrun
    exact hI
  | succ fuel ih =>
    obtain h | ⟨mid, hmid, hrest⟩ := run_succ hrun
    · exact hbody s s' false hI hQ.1 h
    · exact ih (hbody s mid true hI hQ.1 hmid) (hQ.2 mid hmid) hrest

end TailBlend.Loop
