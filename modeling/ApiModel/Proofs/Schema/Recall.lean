/-
  ApiModel.Proofs.Schema.Recall

  What is remembered of types stays. Working out a type leaves the path to it as it was, keeps every
  type that has been worked out, and remembers the type that it gives; no type on the path is
  remembered before it is done. Warnings stay as well.
-/
import ApiModel.Proofs.Schema.Effect
import ApiModel.Proofs.Schema.Settled

namespace ApiModel.Session

open Work

variable {P : Json → Prop} {L : Arena.Law P} {s t : Session} {naming : Naming} {calls : Nat}
  {id : SchemaId} {u : TypeExpr}

/-- The session `t` recalls all types that `s` does and has all its warnings; the path is the same,
    and what is undone on it is still undone. -/
structure Recalls (s t : Session) : Prop where
  typing : t.typing = s.typing
  types : ∀ id u, s.types.get? id = some u → t.types.get? id = some u
  undone : ∀ id ∈ s.typing, s.types.get? id = none → t.types.get? id = none
  warnings : ∀ w ∈ s.warnings, w ∈ t.warnings

instance : IsPreorder Session Recalls where
  refl _ := ⟨rfl, fun _ _ h => h, fun _ _ h => h, fun _ h => h⟩
  trans _ _ _ h h' :=
    { typing := h'.typing.trans h.typing
      types := fun id u hu => h'.types id u (h.types id u hu)
      undone := fun id hid hnone => h'.undone id (h.typing ▸ hid) (h.undone id hid hnone)
      warnings := fun w hw => h'.warnings w (h.warnings w hw) }

theorem allowsSteps_recalls : AllowsSteps Recalls where
  arena _ _ _ := ⟨rfl, fun _ _ h => h, fun _ _ h => h, fun _ h => h⟩
  named _ _ _ := ⟨rfl, fun _ _ h => h, fun _ _ h => h, fun _ h => h⟩
  marked _ _ := ⟨rfl, fun _ _ h => h, fun _ _ h => h, fun _ h => h⟩
  warned _ _ := ⟨rfl, fun _ _ h => h, fun _ _ h => h, fun _ h => List.mem_append_left _ h⟩

/-! ## Working out types -/

/-- When the type of `id` is settled, the path is as it was before, and of what was on it nothing has
    been remembered. -/
theorem Recalls.settleType (hpath : id ∉ s.typing) (hnew : s.types.get? id = none)
    (h : Recalls { s with typing := s.typing ++ [id] } t) (r : Except Failure TypeExpr) :
    Recalls s (settleType id r t) := by
  have htyping : t.typing.dropLast = s.typing := by rw [h.typing, List.dropLast_concat]
  cases r with
  | error e =>
      exact ⟨htyping, h.types, fun i hi => h.undone i (List.mem_append_left _ hi), h.warnings⟩
  | ok u =>
      refine ⟨htyping, fun i v hv => ?_, fun i hi hnone => ?_, h.warnings⟩
      · show (t.types.insert id u).get? i = some v
        have hne : i ≠ id := by
          rintro rfl
          rw [hnew] at hv
          cases hv
        rw [Dict.get?_insert_of_ne _ hne]
        exact h.types i v hv
      · show (t.types.insert id u).get? i = none
        rw [Dict.get?_insert_of_ne _ (by rintro rfl; exact hpath hi)]
        exact h.undone i (List.mem_append_left _ hi) hnone

theorem recalls_formTypeWithin (n : Nat) (id : SchemaId) :
    Obeys Recalls (formTypeWithin calls naming n id) := by
  induction n generalizing id with
  | zero => exact .exhausted
  | succ n ih =>
      intro s
      have hfresh : Obeys Recalls (freshType calls naming (formTypeWithin calls naming n) id) :=
        obeys_freshType (.of_obeys (obeys_className allowsSteps_recalls))
          allowsSteps_recalls.toAllowsWork ih id
      show Recalls s ((formTypeStep calls naming (formTypeWithin calls naming n) id).run s).2
      unfold formTypeStep
      rw [run_bind, run_view]
      cases hknown : s.types.get? id with
      | some u => exact refl_of Recalls s
      | none =>
          show Recalls s (Work.run (if s.typing.contains id then _ else _) s).2
          split
          · exact refl_of Recalls s
          · next hpath =>
              have hstep := hfresh { s with typing := s.typing ++ [id] }
              exact hstep.settleType (by simpa using hpath) hknown _

/-- The type that is given is remembered. -/
theorem returns_formTypeWithin (n : Nat) (id : SchemaId) (s : Session) :
    Returns (formTypeWithin calls naming n id) s fun u t => t.types.get? id = some u := by
  cases n with
  | zero => exact trivial
  | succ n =>
      unfold formTypeWithin formTypeStep
      refine .view_bind ?_
      split
      · next u hu => exact .pure hu
      refine .view_bind ?_
      split
      · exact .view_bind .fault
      · refine .bind (.any _ _) fun _ t _ => ends_thenAlways.2 ?_
        exact Ends.mono (Returns.any _ _) (fun u w _ => Dict.get?_insert_self _ _ _)
          fun _ _ _ => trivial

/-- A type that is remembered is looked up, and nothing else happens. -/
theorem run_formType_of_remembered (h : s.types.get? id = some u) (calls : Nat) :
    (formType (calls + 1) naming id).run s = (.ok u, s) := by
  show (formTypeStep _ _ _ id).run s = _
  unfold formTypeStep
  rw [run_bind, run_view, h]
  rfl

/-! ## Additions that recall -/

/-- The session `t` has all that `s` has and recalls what `s` does. -/
structure Retains (s t : Session) : Prop extends Stays s t, Recalls s t

instance : IsPreorder Session Retains where
  refl s := ⟨refl_of Stays s, refl_of Recalls s⟩
  trans _ _ _ h h' :=
    ⟨trans_of Stays h.toStays h'.toStays, trans_of Recalls h.toRecalls h'.toRecalls⟩

theorem Keeps.retains {α : Type} {x : SessionWork α} {post : α → Session → Prop}
    (h : Keeps L x s post) (hx : Obeys Recalls x) : Yields (Lawful L) Retains x s post :=
  Yields.of_final h fun ht hst => ⟨ht, hst, hx s⟩

theorem retains_normalize (hL : Arena.Upheld L) (hs : s.Lawful L) (hid : id < s.arena.next) :
    Yields (Lawful L) Retains (normalize calls id) s fun r t =>
      t.arena.progress.get? id = some (.done r) :=
  (keeps_normalize hL hs calls hid).retains (obeys_normalize allowsSteps_recalls.toAllowsWork id)

theorem retains_warn (hs : s.Lawful L) (w : Warning) :
    Yields (Lawful L) Retains (warn w) s fun _ t => w ∈ t.warnings := by
  have hwarned : Returns (warn w) s fun _ t => w ∈ t.warnings := by
    show w ∈ (if w ∈ s.warnings then s else { s with warnings := s.warnings ++ [w] }).warnings
    split
    · assumption
    · exact List.mem_append_right _ (List.mem_singleton_self w)
  exact (hwarned.and_yields ((keeps_warn hs w).retains
    (obeys_warn allowsSteps_recalls.toAllowsWork w))).mono fun _ _ _ _ h => h.2

theorem retains_className (hs : s.Lawful L) (id : SchemaId) :
    Yields (Lawful L) Retains (className naming id) s fun name t =>
      t.classNames.get? id = some name :=
  (keeps_className hs id).retains (obeys_className allowsSteps_recalls id)

theorem retains_formType (hL : Arena.Upheld L) (hs : s.Lawful L) (hid : s.arena.IsForm id) :
    Yields (Lawful L) Retains (formType calls naming id) s fun u t =>
      t.types.get? id = some u :=
  ((returns_formTypeWithin calls id s).and_yields
    (Keeps.retains (keeper_formTypeWithin hL calls id s hs hid)
      (recalls_formTypeWithin calls id))).mono fun _ _ _ _ h => h.2

end ApiModel.Session
