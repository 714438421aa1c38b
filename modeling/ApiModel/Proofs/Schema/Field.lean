/-
  ApiModel.Proofs.Schema.Field

  The names of fields. The fields of a schema class get their names one after the other, each apart
  from those before it, so no two are the same. A session is tidy when that holds of every class it
  has registered, the aggregates of response headers left aside; loading, typing and collecting keep
  it tidy, whether they fail or not.
-/
import ApiModel.Proofs.Dict
import ApiModel.Proofs.Fresh
import ApiModel.Proofs.Schema.Effect

namespace ApiModel.Client.Class

/-- No two fields have the same name. -/
def Unambiguous (c : Class) : Prop := (c.fields.map Field.name).Nodup

/-- The class gathers the headers of a response: other than that of a request, it accepts unknown
    keys. -/
def GathersHeaders (c : Class) : Prop := c.base = .metadata ∧ c.allowExtra = true

end ApiModel.Client.Class

namespace ApiModel.Session

open Work

variable {naming : Naming} {calls : Nat} {s : Session} {c : Client.Class}

/-- Of the registered classes only those of response headers may have fields of one name. -/
def Tidy (s : Session) : Prop := ∀ e ∈ s.classes.entries, e.2.GathersHeaders ∨ e.2.Unambiguous

/-- A tidy session stays tidy. -/
def Tidies (s t : Session) : Prop := s.Tidy → t.Tidy

instance : IsPreorder Session Tidies where
  refl _ h := h
  trans _ _ _ h h' hs := h' (h hs)

theorem tidy_empty : empty.Tidy := fun e he => by cases he

/-! ## Fields of one class -/

theorem nodup_append_fieldOf {done : List Client.Field} (hdone : (done.map Client.Field.name).Nodup)
    (wireName : String) (required : Bool) (type : TypeExpr) (raw form : Schema) :
    ((done ++ [fieldOf naming (done.map Client.Field.name) wireName required type raw form]).map
      Client.Field.name).Nodup := by
  rw [List.map_append, List.map_singleton]
  refine hdone.append (List.nodup_singleton _) fun name hname hnew => ?_
  rw [List.mem_singleton.1 hnew] at hname
  exact firstFree_not_mem (numbered_injective _ _) _ hname

theorem returns_fieldsOf (required : SortedSet String) (es : List (String × SchemaId))
    {done : List Client.Field} (hdone : (done.map Client.Field.name).Nodup) :
    Returns (fieldsOf calls naming required es done) s fun fields _ =>
      (fields.map Client.Field.name).Nodup := by
  induction es generalizing done s with
  | nil => exact hdone
  | cons e es ih =>
      obtain ⟨wireName, child⟩ := e
      unfold fieldsOf
      refine .bind (.any _ _) fun form t _ => ?_
      split
      · exact .view_bind (.bind (.any _ _) fun _ u _ => ih hdone)
      · refine .bind (.any _ _) fun type u _ => .view_bind (.view_bind ?_)
        exact ih (nodup_append_fieldOf hdone _ _ _ _ _)

/-- The class of a normal form has no two fields of one name. -/
theorem unambiguous_of_asType {id : SchemaId} {t : Session}
    (h : (asType calls naming id).run s = (.ok (some c), t)) : c.Unambiguous := by
  have hreturns : Returns (asType calls naming id) s fun r _ => ∀ c ∈ r, c.Unambiguous := by
    unfold asType
    refine .view_bind ?_
    split
    · exact .pure (by rintro _ ⟨⟩)
    · refine .bind (.any _ _) fun name u _ => ?_
      refine .bind (returns_fieldsOf _ _ List.nodup_nil) fun fields v hfields => .pure ?_
      rintro _ ⟨⟩
      exact hfields
  exact hreturns.of_ok h c rfl

/-! ## Registered classes -/

theorem tidies_register (hc : c.GathersHeaders ∨ c.Unambiguous) (s : Session) :
    Tidies s { s with classes := s.classes.insert c.name c } := by
  intro hs e he
  rcases Dict.mem_put he with rfl | he
  · exact hc
  · exact hs e he

theorem tidies_registerNew (hc : c.Unambiguous) : Obeys Tidies (registerNew c) := by
  refine .modify fun s hs => ?_
  unfold Dict.insertIfNew
  split
  · exact hs
  · exact tidies_register (.inr hc) s hs

theorem allows_tidies : Allows Tidies where
  arena _ _ _ hs := hs
  loaded _ _ hs := hs
  read _ _ _ hs := hs
  typing _ _ _ hs := hs
  named _ _ _ hs := hs
  marked _ _ hs := hs
  warned _ _ hs := hs

theorem tidies_typeAt {document : Json} (p : Pointer) (required : Bool) :
    Obeys Tidies (typeAt document calls naming p required) :=
  obeys_typeAt allows_tidies.allowsTyping allows_tidies.toAllowsLoading
    (fun _ _ _ t hrun => tidies_registerNew (unambiguous_of_asType hrun) t) p required

end ApiModel.Session
