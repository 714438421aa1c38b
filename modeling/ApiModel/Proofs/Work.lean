/-
  ApiModel.Proofs.Work

  What computations promise. `Ends` speaks of one run, its result and the state that it leaves,
  whether it fails or not. `Yields` is the form in which most promises are made: whatever comes of
  the run, the state keeps an invariant and stands in a given relation to the state before; a result
  has a property besides. Each combinator has one rule, so no later proof opens a computation.
-/
import ApiModel.Work
import Mathlib.Order.Defs.Unbundled

namespace ApiModel.Work

variable {σ τ α β : Type}

/-! ## One run -/

/-- How `x` ends when it starts from `s`: with a result and a state as `ok` says, or with a failure
    and a state as `bad` says. -/
def Ends (x : Work σ α) (s : σ) (ok : α → σ → Prop) (bad : Failure → σ → Prop) : Prop :=
  match x.run s with
  | (.ok a, t) => ok a t
  | (.error e, t) => bad e t

variable {x : Work σ α} {s : σ} {ok ok' : α → σ → Prop} {bad bad' : Failure → σ → Prop}

theorem ends_bind {f : α → Work σ β} {ok : β → σ → Prop} :
    (x >>= f).Ends s ok bad ↔ x.Ends s (fun a t => (f a).Ends t ok bad) bad := by
  unfold Ends
  rw [run_bind]
  rcases x.run s with ⟨_ | _, _⟩ <;> rfl

theorem Ends.mono (h : x.Ends s ok bad) (hok : ∀ a t, ok a t → ok' a t)
    (hbad : ∀ e t, bad e t → bad' e t) : x.Ends s ok' bad' := by
  unfold Ends at h ⊢
  rcases hx : x.run s with ⟨e | a, t⟩ <;> rw [hx] at h
  · exact hbad e t h
  · exact hok a t h

/-- A run ends as it does. -/
theorem ends_run (x : Work σ α) (s : σ) :
    x.Ends s (fun a t => x.run s = (.ok a, t)) fun e t => x.run s = (.error e, t) := by
  unfold Ends
  rcases x.run s with ⟨_ | _, _⟩ <;> rfl

/-- Two promises about one run. -/
theorem Ends.and (h : x.Ends s ok bad) (h' : x.Ends s ok' bad') :
    x.Ends s (fun a t => ok a t ∧ ok' a t) fun e t => bad e t ∧ bad' e t := by
  unfold Ends at h h' ⊢
  rcases hx : x.run s with ⟨_ | _, _⟩ <;> rw [hx] at h h' <;> exact ⟨h, h'⟩

/-- What is promised of a run that gave a result. -/
theorem Ends.of_ok (h : x.Ends s ok bad) {a : α} {t : σ} (hx : x.run s = (.ok a, t)) : ok a t := by
  unfold Ends at h
  rw [hx] at h
  exact h

/-- Where one computation after another gives a result, both do. -/
theorem exists_of_run_bind {f : α → Work σ β} {b : β} {t : σ}
    (h : (x >>= f).run s = (.ok b, t)) :
    ∃ a u, x.run s = (.ok a, u) ∧ (f a).run u = (.ok b, t) := by
  rw [run_bind] at h
  rcases hx : x.run s with ⟨e | a, u⟩ <;> rw [hx] at h
  · cases h
  · exact ⟨a, u, rfl, h⟩

/-- A run whose result is known. -/
theorem run_eq_of_toOption {a : α} (h : (x.run s).1.toOption = some a) :
    x.run s = (.ok a, (x.run s).2) := by
  rcases hx : x.run s with ⟨e | b, t⟩ <;> rw [hx] at h
  · cases h
  · cases h
    rfl

/-- A run that gives a result does not fail. -/
theorem run_ne_error_of_isSome {e : Failure} (h : (x.run s).1.toOption.isSome = true) :
    (x.run s).1 ≠ .error e := by
  intro he
  rw [he] at h
  cases h

/-- A computation of which only the effect counts. -/
theorem run_discard (x : Work σ α) (s : σ) :
    (discard x).run s = ((x.run s).1.map fun _ => (), (x.run s).2) := by
  show (x >>= fun _ => pure ()).run s = _
  rw [run_bind]
  rcases x.run s with ⟨_ | _, _⟩ <;> rfl

theorem ends_thenAlways {after : Except Failure α → σ → σ} :
    (x.thenAlways after).Ends s ok bad ↔
      x.Ends s (fun a t => ok a (after (.ok a) t)) (fun e t => bad e (after (.error e) t)) := by
  unfold Ends
  rw [run_thenAlways]
  rcases x.run s with ⟨_ | _, _⟩ <;> rfl

theorem ends_focus {part : τ → σ} {put : σ → τ → τ} {t : τ} {ok : α → τ → Prop}
    {bad : Failure → τ → Prop} :
    (focus part put x).Ends t ok bad ↔
      x.Ends (part t) (fun a s => ok a (put s t)) (fun e s => bad e (put s t)) := by
  unfold Ends
  rw [run_focus]
  rcases x.run (part t) with ⟨_ | _, _⟩ <;> rfl

/-! ## Invariants and growth -/

/-- Whatever comes of `x` from `s`, the state keeps `I` and stands in relation `R` to `s`; a result
    satisfies `Q` besides. -/
def Yields (I : σ → Prop) (R : σ → σ → Prop) (x : Work σ α) (s : σ) (Q : α → σ → Prop) : Prop :=
  x.Ends s (fun a t => (I t ∧ R s t) ∧ Q a t) (fun _ t => I t ∧ R s t)

namespace Yields

variable {I : σ → Prop} {R : σ → σ → Prop} {Q Q' : α → σ → Prop} {Q₂ : β → σ → Prop}
  {f : α → Work σ β}

theorem mono (h : Yields I R x s Q) (hQ : ∀ a t, I t → R s t → Q a t → Q' a t) :
    Yields I R x s Q' :=
  Ends.mono h (fun a t ht => ⟨ht.1, hQ a t ht.1.1 ht.1.2 ht.2⟩) fun _ _ ht => ht

/-- A promise about a stronger relation between the states. -/
theorem weaken {R' : σ → σ → Prop} (h : Yields I R x s Q) (hR : ∀ s t, R s t → R' s t) :
    Yields I R' x s Q :=
  Ends.mono h (fun _ t ht => ⟨⟨ht.1.1, hR s t ht.1.2⟩, ht.2⟩) fun _ t ht => ⟨ht.1, hR s t ht.2⟩

/-- The state that a run leaves, whatever came of it. -/
theorem final (h : Yields I R x s Q) : I (x.run s).2 ∧ R s (x.run s).2 := by
  unfold Yields Ends at h
  rcases hx : x.run s with ⟨e | a, t⟩ <;> rw [hx] at h
  · exact h
  · exact h.1

/-- A promise that also holds of the state that the run leaves. -/
theorem of_final {I' : σ → Prop} {R' : σ → σ → Prop} (h : Yields I R x s Q)
    (hfinal : I (x.run s).2 → R s (x.run s).2 → I' (x.run s).2 ∧ R' s (x.run s).2) :
    Yields I' R' x s Q := by
  unfold Yields Ends at h ⊢
  rcases hx : x.run s with ⟨e | a, t⟩ <;> rw [hx] at h hfinal
  · exact hfinal h.1 h.2
  · exact ⟨hfinal h.1.1 h.1.2, h.2⟩

/-- What is promised of a run that gave a result. -/
theorem of_ok (h : Yields I R x s Q) {a : α} {t : σ} (hx : x.run s = (.ok a, t)) :
    (I t ∧ R s t) ∧ Q a t :=
  Ends.of_ok h hx

theorem view_bind {γ : Type} {g : σ → γ} {f : γ → Work σ β} (h : Yields I R (f (g s)) s Q₂) :
    Yields I R (view g >>= f) s Q₂ := h

variable [IsPreorder σ R]

theorem pure {a : α} (hs : I s) (h : Q a s) : Yields I R (Pure.pure a) s Q :=
  ⟨⟨hs, refl_of R s⟩, h⟩

theorem fault {e : Fault} (hs : I s) : Yields I R (Work.fault e : Work σ α) s Q :=
  ⟨hs, refl_of R s⟩

theorem exhausted (hs : I s) : Yields I R (Work.exhausted : Work σ α) s Q :=
  ⟨hs, refl_of R s⟩

theorem ofExcept {r : Except Fault α} (hs : I s) (h : ∀ a, r = .ok a → Q a s) :
    Yields I R (Work.ofExcept r) s Q := by
  cases r with
  | ok a => exact Yields.pure hs (h a rfl)
  | error e => exact Yields.fault hs

/-- One computation after another: the second starts where the first left the state. -/
theorem bind (h : Yields I R x s Q)
    (hf : ∀ a t, I t → R s t → Q a t → Yields I R (f a) t Q₂) :
    Yields I R (x >>= f) s Q₂ := by
  refine ends_bind.2 (Ends.mono h ?_ fun _ _ ht => ht)
  rintro a t ⟨⟨ht, hst⟩, hq⟩
  exact Ends.mono (hf a t ht hst hq)
    (fun _ u hu => ⟨⟨hu.1.1, trans_of R hst hu.1.2⟩, hu.2⟩)
    fun _ u hu => ⟨hu.1, trans_of R hst hu.2⟩

/-- A computation of which only the effect counts. -/
theorem discard (h : Yields I R x s Q) : Yields I R (Functor.discard x) s fun _ _ => True := by
  show Yields I R (x >>= fun _ => Pure.pure ()) s fun _ _ => True
  exact h.bind fun _ _ ht _ _ => .pure ht trivial

theorem modify_bind {g : σ → σ} {f : Unit → Work σ β} (hI : I (g s)) (hR : R s (g s))
    (h : Yields I R (f ()) (g s) Q₂) : Yields I R (modify g >>= f) s Q₂ := by
  have hg : Yields I R (modify g) s fun _ t => t = g s := ⟨⟨hI, hR⟩, rfl⟩
  exact hg.bind fun _ t _ _ ht => ht ▸ h

end Yields

/-! ## Runs that give a result -/

/-- If `x` from `s` gives a result, the result satisfies `Q`, and the state keeps `I` and stands in
    relation `R` to `s`. -/
def Gives (I : σ → Prop) (R : σ → σ → Prop) (x : Work σ α) (s : σ) (Q : α → σ → Prop) : Prop :=
  x.Ends s (fun a t => (I t ∧ R s t) ∧ Q a t) fun _ _ => True

namespace Gives

variable {I : σ → Prop} {R : σ → σ → Prop} {Q : α → σ → Prop} {Q₂ : β → σ → Prop}
  {f : α → Work σ β}

theorem fault {e : Fault} : Gives I R (Work.fault e : Work σ α) s Q := trivial

theorem view_bind {γ : Type} {g : σ → γ} {f : γ → Work σ β} (h : Gives I R (f (g s)) s Q₂) :
    Gives I R (view g >>= f) s Q₂ := h

/-- What comes after a computation is run only when that gave a result. -/
theorem ends_bind {ok : β → σ → Prop} (h : Gives I R x s Q)
    (hf : ∀ a t, I t → R s t → Q a t → (f a).Ends t ok fun _ _ => True) :
    (x >>= f).Ends s ok fun _ _ => True :=
  Work.ends_bind.2 (Ends.mono h (fun a t ht => hf a t ht.1.1 ht.1.2 ht.2) fun _ _ ht => ht)

variable [IsPreorder σ R]

theorem pure {a : α} (hs : I s) (h : Q a s) : Gives I R (Pure.pure a) s Q :=
  ⟨⟨hs, refl_of R s⟩, h⟩

theorem ofExcept {r : Except Fault α} (hs : I s) (h : ∀ a, r = .ok a → Q a s) :
    Gives I R (Work.ofExcept r) s Q := by
  cases r with
  | ok a => exact Gives.pure hs (h a rfl)
  | error e => exact Gives.fault

/-- One computation after another: the second starts where the first left the state. -/
theorem bind (h : Gives I R x s Q)
    (hf : ∀ a t, I t → R s t → Q a t → Gives I R (f a) t Q₂) : Gives I R (x >>= f) s Q₂ :=
  h.ends_bind fun a t ht hst hq => Ends.mono (hf a t ht hst hq)
    (fun _ _ hu => ⟨⟨hu.1.1, trans_of R hst hu.1.2⟩, hu.2⟩) fun _ _ hu => hu

end Gives

/-! ## Runs that fail -/

/-- If `x` from `s` fails, the failure is as `bad` says. -/
def Fails (x : Work σ α) (s : σ) (bad : Failure → Prop) : Prop :=
  x.Ends s (fun _ _ => True) fun e _ => bad e

namespace Fails

variable {bad : Failure → Prop} {f : α → Work σ β}

theorem pure {a : α} : Fails (Pure.pure a) s bad := trivial

theorem view_bind {γ : Type} {g : σ → γ} {f : γ → Work σ β} (h : Fails (f (g s)) s bad) :
    Fails (view g >>= f) s bad := h

theorem modify_bind {g : σ → σ} {f : Unit → Work σ β} (h : Fails (f ()) (g s) bad) :
    Fails (modify g >>= f) s bad := h

theorem thenAlways {after : Except Failure α → σ → σ} (h : Fails x s bad) :
    Fails (x.thenAlways after) s bad := ends_thenAlways.2 h

/-- The second computation is run only when the first gave a result, and starts from what that is
    known to leave behind. -/
theorem bind {I : σ → Prop} {R : σ → σ → Prop} {Q : α → σ → Prop} (hfail : Fails x s bad)
    (h : Yields I R x s Q) (hf : ∀ a t, I t → R s t → Q a t → Fails (f a) t bad) :
    Fails (x >>= f) s bad := by
  refine ends_bind.2 ?_
  unfold Yields Fails Ends at *
  rcases hx : x.run s with ⟨e | a, t⟩ <;> rw [hx] at hfail h
  · exact hfail
  · exact hf a t h.1.1 h.1.2 h.2

/-- What comes afterwards fails as `bad` says wherever it starts. -/
theorem bind_any (hfail : Fails x s bad) (hf : ∀ a t, Fails (f a) t bad) :
    Fails (x >>= f) s bad :=
  ends_bind.2 (Ends.mono hfail (fun a t _ => hf a t) fun _ _ he => he)

theorem ofExcept_bind {r : Except Fault α} (herror : ∀ e, r = .error e → bad (.fault e))
    (hok : ∀ a, r = .ok a → Fails (f a) s bad) : Fails (Work.ofExcept r >>= f) s bad := by
  cases r with
  | ok a => exact hok a rfl
  | error e => exact herror e rfl

/-- The failure of a run that has one. -/
theorem of_error (h : Fails x s bad) {e : Failure} (hx : (x.run s).1 = .error e) : bad e := by
  unfold Fails Ends at h
  rcases hrun : x.run s with ⟨e' | a, t⟩ <;> rw [hrun] at h hx
  · cases hx
    exact h
  · cases hx

end Fails

end ApiModel.Work
