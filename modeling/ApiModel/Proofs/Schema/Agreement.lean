/-
  ApiModel.Proofs.Schema.Agreement

  Loading from two descriptions that are alike as far as it looks. A schema is read at the end of a
  reference, and its children are loaded from below that place; so as long as one starts where the
  descriptions are alike, both give the same schemas in the same order, and with them the same types
  and classes. The supply of nested loads may be larger for the second.
-/
import ApiModel.Proofs.Agreement
import ApiModel.Proofs.Document.View
import ApiModel.Schema.Class

namespace ApiModel.Session

open Document Work

variable {Seen : Pointer → Prop} {document document' : Json} {load load' : Loader}
  {place p : Pointer} {fields : List (String × Json)}

/-! ## Child schemas -/

section Children

variable (hpush : ∀ p s, Seen p → Seen (p.push s)) (hload : ∀ p, Seen p → Agrees (load p) (load' p))
include hpush hload

theorem agrees_loadItems (hplace : Seen place) :
    Agrees (loadItems load place fields) (loadItems load' place fields) := by
  unfold loadItems
  split
  · exact .refl _
  · exact .refl _
  · exact (hload _ (hpush _ _ hplace)).bind_refl _

theorem agrees_loadProperties (hplace : Seen place) (keys : List String)
    (read : Dict String SchemaId) :
    Agrees (loadProperties load place keys read) (loadProperties load' place keys read) := by
  induction keys generalizing read with
  | nil => exact .refl _
  | cons key keys ih => exact (hload _ (hpush _ _ hplace)).bind fun child => ih _

theorem agrees_loadExtras (hplace : Seen place) :
    Agrees (loadExtras load place fields) (loadExtras load' place fields) := by
  unfold loadExtras
  split
  · exact .refl _
  · exact .refl _
  · exact (hload _ (hpush _ _ hplace)).bind_refl _

theorem agrees_loadFrom (hplace : Seen place) (i : Nat) (items : List Json) :
    Agrees (loadFrom load place i items) (loadFrom load' place i items) := by
  induction items generalizing i with
  | nil => exact .refl _
  | cons v items ih =>
      exact (hload _ (hpush _ _ hplace)).bind fun member => (ih (i + 1)).bind_refl _

theorem agrees_loadMembers (hplace : Seen place) (keyword : String) :
    Agrees (loadMembers load place fields keyword) (loadMembers load' place fields keyword) := by
  unfold loadMembers
  split
  · exact .refl _
  · exact agrees_loadFrom hpush hload (hpush _ _ hplace) _ _
  · exact .refl _

theorem agrees_readSchema (hplace : Seen place) (v : Json) :
    Agrees (readSchema load place v) (readSchema load' place v) := by
  unfold readSchema
  split
  · exact .refl _
  · exact .refl _
  · refine (Agrees.refl _).bind fun keywords => ?_
    refine (agrees_loadItems hpush hload hplace).bind fun items => ?_
    refine (agrees_loadProperties hpush hload (hpush _ _ hplace) _ _).bind fun properties => ?_
    refine (agrees_loadExtras hpush hload hplace).bind fun extras => ?_
    refine (agrees_loadMembers hpush hload hplace _).bind fun allOf => ?_
    refine (agrees_loadMembers hpush hload hplace _).bind fun anyOf => ?_
    exact (agrees_loadMembers hpush hload hplace _).bind_refl _
  · exact .refl _

end Children

/-! ## Loading -/

theorem agrees_loadStep (h : Alike Seen document document')
    (hload : ∀ p, Seen p → Agrees (load p) (load' p)) (hp : Seen p) :
    Agrees (loadStep document load p) (loadStep document' load' p) := by
  unfold loadStep
  refine .view_bind fun known => ?_
  split
  · exact .refl _
  refine .ofExcept_bind fun ⟨target, v⟩ hres => ?_
  obtain ⟨hres', htarget⟩ := h.resolve hp hres
  refine ⟨hres', .view_bind fun known => ?_⟩
  split
  · exact .refl _
  refine (Agrees.refl _).bind fun id => (Agrees.refl _).bind fun _ => (Agrees.refl _).bind fun _ => ?_
  exact (agrees_readSchema h.push hload htarget v).bind_refl _

/-- A larger supply of nested loads agrees with a smaller one. -/
theorem agrees_loadWithin (h : Alike Seen document document') {n m : Nat} (hnm : n ≤ m)
    (hp : Seen p) : Agrees (loadWithin document n p) (loadWithin document' m p) := by
  induction n generalizing m p with
  | zero => exact .exhausted _
  | succ n ih =>
      cases m with
      | zero => cases hnm
      | succ m => exact agrees_loadStep h (fun q hq => ih (Nat.le_of_succ_le_succ hnm) hq) hp

theorem agrees_load (h : Alike Seen document document')
    (hbound : loadBound document ≤ loadBound document') (hp : Seen p) :
    Agrees (Session.load document p) (Session.load document' p) :=
  agrees_loadWithin h hbound hp

/-- The type at a place, and the classes that it reaches, are the same in both descriptions: after
    the schema has been loaded nothing looks at the description. -/
theorem agrees_typeAt (h : Alike Seen document document')
    (hbound : loadBound document ≤ loadBound document') (hp : Seen p) (calls : Nat)
    (naming : Naming) (required : Bool) :
    Agrees (typeAt document calls naming p required) (typeAt document' calls naming p required) :=
  (agrees_load h hbound hp).bind_refl _

end ApiModel.Session
