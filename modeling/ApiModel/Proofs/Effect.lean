/-
  ApiModel.Proofs.Effect

  What computations do to their state. `Obeys` is a promise about every run, wherever it starts and
  however it ends: the states before and after stand in a relation. `Returns` speaks of the runs
  that give a result. Each combinator has a rule for both, and what obeys a relation may be used
  where only results count.
-/
import ApiModel.Proofs.Work

namespace ApiModel.Work

variable {σ τ α β : Type} {R : σ → σ → Prop} {x : Work σ α} {f : α → Work σ β}

/-! ## Every run -/

/-- Wherever `x` starts and however it ends, the states before and after stand in relation `R`. -/
def Obeys (R : σ → σ → Prop) (x : Work σ α) : Prop := ∀ s, R s (x.run s).2

/-- However `x` ends when it starts in `s`, the states before and after stand in relation `R`. -/
def Leads (R : σ → σ → Prop) (x : Work σ α) (s : σ) : Prop := R s (x.run s).2

namespace Leads

variable {s : σ}

theorem view_bind {γ : Type} {g : σ → γ} {f : γ → Work σ β} (h : Leads R (f (g s)) s) :
    Leads R (Work.view g >>= f) s := h

variable [IsPreorder σ R]

theorem pure (a : α) : Leads R (Pure.pure a : Work σ α) s := refl_of R s

/-- The second computation may count on what the first one gives and leaves. -/
theorem bind (h : Leads R x s) (hf : ∀ a t, x.run s = (.ok a, t) → Leads R (f a) t) :
    Leads R (x >>= f) s := by
  unfold Leads at *
  rw [run_bind]
  rcases hrun : x.run s with ⟨e | a, t⟩ <;> rw [hrun] at h
  · exact h
  · exact trans_of R h (hf a t hrun)

end Leads

namespace Obeys

theorem leads (h : Obeys R x) (s : σ) : Leads R x s := h s

theorem modify {g : σ → σ} (h : ∀ s, R s (g s)) : Obeys R (Work.modify g) := h

/-- Two promises about every run. -/
theorem and {S : σ → σ → Prop} (h : Obeys R x) (h' : Obeys S x) :
    Obeys (fun s t => R s t ∧ S s t) x := fun s => ⟨h s, h' s⟩

/-- A computation on a part of the state. -/
theorem focus {S : τ → τ → Prop} {part : τ → σ} {put : σ → τ → τ} (h : Obeys R x)
    (hput : ∀ t s, R (part t) s → S t (put s t)) : Obeys S (Work.focus part put x) :=
  fun t => hput t _ (h (part t))

variable [IsPreorder σ R]

theorem pure (a : α) : Obeys R (Pure.pure a : Work σ α) := fun s => refl_of R s

theorem fault (e : Fault) : Obeys R (Work.fault e : Work σ α) := fun s => refl_of R s

theorem exhausted : Obeys R (Work.exhausted : Work σ α) := fun s => refl_of R s

theorem ofExcept (r : Except Fault α) : Obeys R (Work.ofExcept r : Work σ α) := by
  cases r with
  | ok a => exact pure a
  | error e => exact fault e

omit [IsPreorder σ R] in
theorem view_bind {γ : Type} {g : σ → γ} {f : γ → Work σ β} (h : ∀ c, Obeys R (f c)) :
    Obeys R (Work.view g >>= f) := fun s => h (g s) s

/-- One computation after another; the second may count on what the first gives and leaves. -/
theorem bind_at (h : Obeys R x) (hf : ∀ s a t, x.run s = (.ok a, t) → Leads R (f a) t) :
    Obeys R (x >>= f) :=
  fun s => Leads.bind (h s) (hf s)

theorem bind (h : Obeys R x) (hf : ∀ a, Obeys R (f a)) : Obeys R (x >>= f) :=
  h.bind_at fun _ a t _ => hf a t

theorem thenAlways {after : Except Failure α → σ → σ} (h : Obeys R x)
    (hafter : ∀ r s, R s (after r s)) : Obeys R (x.thenAlways after) :=
  fun s => trans_of R (h s) (hafter _ _)

end Obeys

/-! ## Runs that give a result -/

/-- If `x` from `s` gives a result, the result and the state after it are as `ok` says. -/
abbrev Returns (x : Work σ α) (s : σ) (ok : α → σ → Prop) : Prop := x.Ends s ok fun _ _ => True

namespace Returns

variable {s : σ} {ok ok' : α → σ → Prop} {ok₂ : β → σ → Prop}

theorem pure {a : α} (h : ok a s) : Returns (Pure.pure a) s ok := h

theorem fault {e : Fault} : Returns (Work.fault e : Work σ α) s ok := trivial

theorem ofExcept_bind {r : Except Fault α} (h : ∀ a, r = .ok a → Returns (f a) s ok₂) :
    Returns (Work.ofExcept r >>= f) s ok₂ := by
  cases r with
  | ok a => exact h a rfl
  | error e => exact fault

theorem view_bind {γ : Type} {g : σ → γ} {f : γ → Work σ β} (h : Returns (f (g s)) s ok₂) :
    Returns (Work.view g >>= f) s ok₂ := h

theorem mono (h : Returns x s ok) (hok : ∀ a t, ok a t → ok' a t) : Returns x s ok' :=
  Ends.mono h hok fun _ _ h => h

theorem bind (h : Returns x s ok) (hf : ∀ a t, ok a t → Returns (f a) t ok₂) :
    Returns (x >>= f) s ok₂ :=
  ends_bind.2 (Ends.mono h hf fun _ _ h => h)

/-- Of what obeys a relation only that is known of its results. -/
theorem of_obeys (h : Obeys R x) (s : σ) : Returns x s fun _ t => R s t := by
  have hx := h s
  unfold Returns Ends
  rcases hrun : x.run s with ⟨e | a, t⟩ <;> rw [hrun] at hx
  · trivial
  · exact hx

/-- A promise about every run, and one about the results. -/
theorem and_yields {I : σ → Prop} {Q : α → σ → Prop} (h : Returns x s ok)
    (h' : Yields I R x s Q) : Yields I R x s fun a t => Q a t ∧ ok a t :=
  Ends.mono (Ends.and h' h) (fun _ _ ht => ⟨ht.1.1, ht.1.2, ht.2⟩) fun _ _ ht => ht.1

/-- Nothing is asked of the result. -/
theorem any (x : Work σ α) (s : σ) : Returns x s fun _ _ => True := by
  unfold Returns Ends
  rcases x.run s with ⟨_ | _, _⟩
  · trivial
  · trivial

end Returns

end ApiModel.Work
