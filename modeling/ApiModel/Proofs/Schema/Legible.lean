/-
  ApiModel.Proofs.Schema.Legible

  Schemas that can be read. A load gives a place its number before it reads what is there, and fails
  when that cannot be read; so a load that gives a schema has read all that it gave numbers to.
-/
import ApiModel.Proofs.Schema.Descent

namespace ApiModel.Session

open Document Work

variable {document : Json} {s t : Session} {fields : List (String × Json)} {load : Loader}
  {place : Pointer}

/-- The keywords of a schema object can be read. -/
def Legible (place : Pointer) (v : Json) : Prop :=
  ∀ fields, v = .obj fields → ∃ k, readKeywords place fields = .ok k

/-- Every place that gets a number between `s` and `t` holds a schema that can be read. -/
def AddsLegible (document : Json) (s t : Session) : Prop :=
  ∀ q v id, resolve document q = .ok (q, v) → t.loaded.get? q = some id →
    (∃ id, s.loaded.get? q = some id) ∨ Legible q v

instance (document : Json) : IsPreorder Session (AddsLegible document) where
  refl _ _ _ id _ h := .inl ⟨id, h⟩
  trans _ _ _ h h' q v id hq hid := by
    rcases h' q v id hq hid with ⟨i, hi⟩ | hlegible
    · exact h q v i hq hi
    · exact .inr hlegible

/-- If `x`, started in `s`, gives a result, it has read what it gave numbers to. -/
abbrev Deciphers {α : Type} (document : Json) (x : SessionWork α) (s : Session)
    (post : α → Session → Prop) : Prop :=
  Gives (fun _ => True) (AddsLegible document) x s post

/-- A way of loading that has read what it gave numbers to. -/
def Deciphering (document : Json) (load : Loader) : Prop :=
  ∀ p s, Deciphers document (load p) s fun _ _ => True

theorem addsLegible_of_loaded_eq (h : t.loaded = s.loaded) : AddsLegible document s t :=
  fun _ _ id _ hid => .inl ⟨id, h ▸ hid⟩

theorem deciphers_loadItems (hload : Deciphering document load) :
    Deciphers document (loadItems load place fields) s fun _ _ => True := by
  unfold loadItems
  split
  · exact .pure trivial trivial
  · exact .fault
  · exact .bind (hload _ s) fun _ _ _ _ _ => .pure trivial trivial

theorem deciphers_loadProperties (hload : Deciphering document load) (base : Pointer)
    (keys : List String) (read : Dict String SchemaId) :
    Deciphers document (loadProperties load base keys read) s fun _ _ => True := by
  induction keys generalizing read s with
  | nil => exact .pure trivial trivial
  | cons key keys ih => exact .bind (hload _ s) fun _ _ _ _ _ => ih _

theorem deciphers_loadExtras (hload : Deciphering document load) :
    Deciphers document (loadExtras load place fields) s fun _ _ => True := by
  unfold loadExtras
  split
  · exact .pure trivial trivial
  · exact .pure trivial trivial
  · exact .bind (hload _ s) fun _ _ _ _ _ => .pure trivial trivial

theorem deciphers_loadMembers (hload : Deciphering document load) (keyword : String) :
    Deciphers document (loadMembers load place fields keyword) s fun _ _ => True := by
  have hfrom : ∀ (base : Pointer) (i : Nat) (items : List Json) (s : Session),
      Deciphers document (loadFrom load base i items) s fun _ _ => True := by
    intro base i items
    induction items generalizing i with
    | nil => exact fun _ => .pure trivial trivial
    | cons v items ih =>
        exact fun s => .bind (hload _ s) fun _ t _ _ _ =>
          .bind (ih (i + 1) t) fun _ _ _ _ _ => .pure trivial trivial
  unfold loadMembers
  split
  · exact .pure trivial trivial
  · exact hfrom _ _ _ s
  · exact .fault

theorem deciphers_allowNull (m : Schema) :
    Deciphers document (allowNull m) s fun _ _ => True := by
  unfold allowNull
  split
  · exact .pure trivial trivial
  · split
    · exact ⟨⟨trivial, addsLegible_of_loaded_eq rfl⟩, trivial⟩
    · exact .pure trivial trivial

theorem deciphers_readSchema (hload : Deciphering document load) :
    Deciphers document (readSchema load place v) s fun _ _ => Legible place v := by
  unfold readSchema
  split
  · exact .pure trivial nofun
  · exact .pure trivial nofun
  · next fields =>
      refine .bind (Q := fun _ _ => Legible place (.obj fields)) (.ofExcept trivial ?_)
        fun k s₀ _ _ hlegible => ?_
      · rintro k hk _ ⟨⟩
        exact ⟨k, hk⟩
      refine .bind (deciphers_loadItems hload) fun _ s₁ _ _ _ => ?_
      refine .bind (deciphers_loadProperties hload _ _ _) fun _ s₂ _ _ _ => ?_
      refine .bind (deciphers_loadExtras hload) fun _ s₃ _ _ _ => ?_
      refine .bind (deciphers_loadMembers hload "allOf") fun _ s₄ _ _ _ => ?_
      refine .bind (deciphers_loadMembers hload "anyOf") fun _ s₅ _ _ _ => ?_
      refine .bind (deciphers_loadMembers hload "oneOf") fun _ s₆ _ _ _ => ?_
      -- what is left loads nothing
      have hrest : ∀ (u : Session) (m : Schema), Deciphers document
          (if flag fields "nullable" then allowNull m else return m) u
          fun _ _ => Legible place (.obj fields) := by
        intro u m
        split
        · exact Ends.mono (deciphers_allowNull m) (fun _ _ h => ⟨h.1, hlegible⟩) fun _ _ h => h
        · exact .pure trivial hlegible
      have hwarn : ∀ w, Deciphers document (warn w) s₆ fun _ _ => True := by
        refine fun w => ⟨⟨trivial, addsLegible_of_loaded_eq ?_⟩, trivial⟩
        dsimp only
        split <;> rfl
      dsimp only
      split
      · exact .bind (hwarn _) fun _ u _ _ _ => hrest u _
      · exact hrest s₆ _
  · exact .fault

theorem deciphering_loadStep (hload : Deciphering document load) :
    Deciphering document (loadStep document load) := by
  intro p s
  unfold loadStep
  refine .view_bind ?_
  split
  · exact .pure trivial trivial
  next hnone =>
  refine .bind (Q := fun r t => resolve document p = .ok r ∧ t = s)
    (.ofExcept trivial fun r hr => ⟨hr, rfl⟩) ?_
  rintro ⟨target, v⟩ t _ _ ⟨hres, rfl⟩
  refine .view_bind ?_
  split
  · next id hid =>
      -- the pointer that is new leads elsewhere
      refine ⟨⟨trivial, fun q w i hq hi => ?_⟩, trivial⟩
      rw [Dict.get?_insert] at hi
      split at hi
      · next heq =>
          subst heq
          cases hres.symm.trans hq
          cases hnone.symm.trans hid
      · exact .inl ⟨i, hi⟩
  next htarget =>
  -- the two pointers that get the number lead to what is read then
  show Ends (readSchema load target v >>= fun m => do
    modify fun w => { w with arena := w.arena.replace t.arena.next m }
    return t.arena.next) (reserved t target p) _ _
  refine ends_bind.2 (Ends.mono (deciphers_readSchema hload) ?_ fun _ _ h => h)
  rintro m w ⟨⟨-, huw⟩, hlegible⟩
  refine ⟨⟨trivial, fun q x i hq hi => ?_⟩, trivial⟩
  rcases huw q x i hq hi with ⟨j, hj⟩ | hx
  · rw [get?_reserved] at hj
    split at hj
    · next hor =>
        rcases hor with rfl | rfl
        · cases hres.symm.trans hq
          exact .inr hlegible
        · cases (resolve_target hres).symm.trans hq
          exact .inr hlegible
    · exact .inl ⟨j, hj⟩
  · exact .inr hx

theorem deciphering_loadWithin (document : Json) (calls : Nat) :
    Deciphering document (loadWithin document calls) := by
  induction calls with
  | zero => exact fun _ _ => trivial
  | succ calls ih => exact deciphering_loadStep ih

end ApiModel.Session
