/-
  ApiModel.Proofs.Agreement

  Two computations side by side. The second agrees with the first when it gives whatever the first
  gives and leaves the same state behind; where the first fails, nothing is asked of the second. A
  larger supply of calls agrees with a smaller one, and so does a run over a description that differs
  only where the run does not look. Each combinator has a rule.
-/
import ApiModel.Proofs.Effect

namespace ApiModel.Work

variable {σ τ α β : Type}

/-- Wherever `x` gives a result, `y` gives the same one and leaves the same state. -/
def Agrees (x y : Work σ α) : Prop := ∀ s a t, x.run s = (.ok a, t) → y.run s = (.ok a, t)

namespace Agrees

variable {x y z : Work σ α} {f g : α → Work σ β}

theorem refl (x : Work σ α) : Agrees x x := fun _ _ _ h => h

theorem trans (h : Agrees x y) (h' : Agrees y z) : Agrees x z :=
  fun s a t hx => h' s a t (h s a t hx)

/-- What is known of the second computation when the first gives a result. -/
theorem returns (h : Agrees x y) (s : σ) : x.Returns s fun a t => y.run s = (.ok a, t) := by
  unfold Returns Ends
  rcases hx : x.run s with ⟨e | a, t⟩
  · trivial
  · exact h s a t hx

theorem fault (e : Fault) (y : Work σ α) : Agrees (Work.fault e) y := nofun

theorem exhausted (y : Work σ α) : Agrees Work.exhausted y := nofun

theorem bind (h : Agrees x y) (hf : ∀ a, Agrees (f a) (g a)) :
    Agrees (x >>= f) (y >>= g) := by
  intro s b u hrun
  rw [run_bind] at hrun ⊢
  rcases hx : x.run s with ⟨e | a, t⟩ <;> rw [hx] at hrun
  · cases hrun
  · rw [h s a t hx]
    exact hf a t b u hrun

/-- The same goes on after two computations that agree. -/
theorem bind_refl (h : Agrees x y) (f : α → Work σ β) : Agrees (x >>= f) (y >>= f) :=
  h.bind fun a => .refl (f a)

theorem view_bind {γ : Type} {v : σ → γ} {f g : γ → Work σ β} (hf : ∀ c, Agrees (f c) (g c)) :
    Agrees (Work.view v >>= f) (Work.view v >>= g) := (refl _).bind hf

/-- A result without state, and what comes after it. -/
theorem ofExcept_bind {r r' : Except Fault α}
    (h : ∀ a, r = .ok a → r' = .ok a ∧ Agrees (f a) (g a)) :
    Agrees (Work.ofExcept r >>= f) (Work.ofExcept r' >>= g) := by
  cases r with
  | ok a =>
      obtain ⟨rfl, hf⟩ := h a rfl
      exact hf
  | error e => exact fault e _

/-- A computation on a part of the state. -/
theorem focus {part : τ → σ} {put : σ → τ → τ} (h : Agrees x y) :
    Agrees (Work.focus part put x) (Work.focus part put y) := by
  intro t a u hrun
  rw [run_focus] at hrun ⊢
  rcases hx : x.run (part t) with ⟨e | b, s⟩ <;> rw [hx] at hrun <;> cases hrun
  rw [h _ _ _ hx]

end Agrees

end ApiModel.Work
