/-
  ApiModel.Work

  Computations that may fail and keep their state when they do. A failed step leaves behind what it
  did before it failed, and later steps build on that; so the state is returned beside the outcome,
  not inside it. Recursion whose end the data do not bound runs on a given supply of calls, and
  using it up is a failure of its own, never mistaken for a fault of the document.
-/
import ApiModel.Fault

namespace ApiModel

/-- Why a computation ends without a result. -/
inductive Failure where
  /-- The document is at fault. -/
  | fault (f : Fault)
  /-- The supply of nested calls ran out. -/
  | exhausted

/-- A computation over a state `σ` that keeps the state when it fails. -/
def Work (σ α : Type) : Type := σ → Except Failure α × σ

namespace Work

variable {σ τ α β : Type}

/-- Run a computation. -/
def run (x : Work σ α) (s : σ) : Except Failure α × σ := x s

/-- A result without an effect. -/
protected def pure (a : α) : Work σ α := fun s => (.ok a, s)

/-- One computation after another; a failure of the first is that of both. -/
protected def bind (x : Work σ α) (f : α → Work σ β) : Work σ β := fun s =>
  match x s with
  | (.ok a, s') => f a s'
  | (.error e, s') => (.error e, s')

instance : Monad (Work σ) where
  pure := Work.pure
  bind := Work.bind

/-- The state. -/
def get : Work σ σ := fun s => (.ok s, s)

/-- A view of the state. -/
def view (f : σ → α) : Work σ α := fun s => (.ok (f s), s)

/-- Change the state. -/
def modify (f : σ → σ) : Work σ Unit := fun s => (.ok (), f s)

/-- End with a fault of the document. -/
def fault (f : Fault) : Work σ α := fun s => (.error (.fault f), s)

/-- End because the supply of calls is used up. -/
def exhausted : Work σ α := fun s => (.error .exhausted, s)

/-- The result of a computation without state. -/
def ofExcept (x : Except Fault α) : Work σ α :=
  match x with
  | .ok a => Work.pure a
  | .error f => fault f

/-- A computation, and a change of state after it that may depend on how it ended. -/
def thenAlways (x : Work σ α) (after : Except Failure α → σ → σ) : Work σ α := fun s =>
  let (r, s') := x s
  (r, after r s')

/-- A computation on a part of the state. -/
def focus (part : τ → σ) (put : σ → τ → τ) (x : Work σ α) : Work τ α := fun t =>
  let (r, s) := x (part t)
  (r, put s t)

@[simp] theorem run_pure (a : α) (s : σ) : (pure a : Work σ α).run s = (.ok a, s) := rfl

@[simp] theorem run_get (s : σ) : (get : Work σ σ).run s = (.ok s, s) := rfl

@[simp] theorem run_view (f : σ → α) (s : σ) : (view f).run s = (.ok (f s), s) := rfl

@[simp] theorem run_modify (f : σ → σ) (s : σ) : (modify f).run s = (.ok (), f s) := rfl

@[simp] theorem run_fault (f : Fault) (s : σ) :
    (fault f : Work σ α).run s = (.error (.fault f), s) := rfl

@[simp] theorem run_exhausted (s : σ) : (exhausted : Work σ α).run s = (.error .exhausted, s) := rfl

/-- What comes after a computation sees how it ended and does not change that. -/
theorem run_thenAlways (x : Work σ α) (after : Except Failure α → σ → σ) (s : σ) :
    (x.thenAlways after).run s = ((x.run s).1, after (x.run s).1 (x.run s).2) := rfl

/-- A computation on a part of the state leaves the rest as `put` has it. -/
theorem run_focus (part : τ → σ) (put : σ → τ → τ) (x : Work σ α) (t : τ) :
    (focus part put x).run t = ((x.run (part t)).1, put (x.run (part t)).2 t) := rfl

theorem run_bind (x : Work σ α) (f : α → Work σ β) (s : σ) :
    (x >>= f).run s =
      match x.run s with
      | (.ok a, s') => (f a).run s'
      | (.error e, s') => (.error e, s') := rfl

private theorem id_map_work (x : Work σ α) : id <$> x = x := by
  funext s
  show (match x s with
    | (.ok a, s') => _
    | (.error e, s') => _) = x s
  rcases x s with ⟨_ | _, _⟩ <;> rfl

private theorem bind_assoc_work {γ : Type} (x : Work σ α) (f : α → Work σ β) (g : β → Work σ γ) :
    x >>= f >>= g = x >>= fun a => f a >>= g := by
  funext s
  show (match (match x s with
      | (.ok a, s') => f a s'
      | (.error e, s') => (.error e, s')) with
    | (.ok b, s') => g b s'
    | (.error e, s') => _) = (match x s with
    | (.ok a, s') => _
    | (.error e, s') => _)
  rcases x s with ⟨_ | _, _⟩ <;> rfl

instance : LawfulMonad (Work σ) :=
  LawfulMonad.mk' _ id_map_work (fun _ _ => rfl) bind_assoc_work

end Work

end ApiModel
