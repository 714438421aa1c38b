/-
  ApiModel.Proofs.Schema.Annotation

  What the schema of a property says about itself: its description, its default and its access
  flags. The field of the property has all that is written there, unless the schema is split. Then
  the schema that is left without null has it, and the one that takes its place says nothing; so the
  field has only what the normal form says.
-/
import ApiModel.Proofs.Schema.Faithful
import ApiModel.Proofs.Schema.Mirror

namespace ApiModel.Session

open Document Work

variable {s t : Session} {document : Json} {naming : Naming} {calls : Nat} {id : SchemaId}
  {p target place : Pointer} {fields : List (String × Json)} {m k : Schema}
  {e : String × SchemaId} {c : Client.Class}

/-- The schema says about itself what is written in an object. -/
structure Tells (fields : List (String × Json)) (m : Schema) : Prop where
  description : m.description = text? fields "description"
  default : m.default = fields.lookup "default"
  readOnly : m.readOnly = flag fields "readOnly"
  writeOnly : m.writeOnly = flag fields "writeOnly"

/-- What is written in an object about the schema there is found in the field. -/
structure Annotates (fields : List (String × Json)) (f : Client.Field) : Prop where
  description : ∀ text, text? fields "description" = some text → f.description = some text
  default : ∀ v, fields.lookup "default" = some v → f.default = some v
  readOnly : flag fields "readOnly" = true → f.readOnly = true
  writeOnly : flag fields "writeOnly" = true → f.writeOnly = true

/-! ## Loaded schemas -/

theorem tells_of_readKeywords (h : readKeywords place fields = .ok k) : Tells fields k := by
  unfold readKeywords at h
  cases hkinds : readKinds place fields with
  | error e =>
      rw [hkinds] at h
      cases h
  | ok kinds =>
      rw [hkinds] at h
      cases h
      exact ⟨rfl, rfl, rfl, rfl⟩

theorem Copies.tells (h : Copies s target fields m) : Tells fields m := by
  obtain ⟨k, hk, hm⟩ := h.keywords
  rw [hm]
  exact ⟨(tells_of_readKeywords hk).description, (tells_of_readKeywords hk).default,
    (tells_of_readKeywords hk).readOnly, (tells_of_readKeywords hk).writeOnly⟩

/-- Whether a schema is split can be seen from what has been read. -/
theorem Copies.split_iff (h : Copies s target fields m) : Split (.obj fields) ↔
    flag fields "nullable" = true ∧ m.kinds = none ∧ m.hasCombinators = true := by
  obtain ⟨k, hk, hm⟩ := h.keywords
  have hkinds : m.kinds = k.kinds := by rw [hm]
  have hchild : ∀ slot : Slot, slot.value? (.obj fields) = none ↔ slot.child? m = none := by
    intro slot
    have hleads := h.children slot
    revert hleads
    generalize slot.value? (.obj fields) = o, slot.child? m = o'
    intro hleads
    cases hleads with
    | some _ => exact iff_of_false nofun nofun
    | none => exact iff_of_true rfl rfl
  rw [flag_eq_true_iff, hkinds, kinds_eq_none_iff hk, hasCombinators_iff]
  exact and_congr_right fun _ => and_congr_right fun _ => exists_congr fun combinator =>
    not_congr (hchild _)

/-- A schema that has been read says what is written, or nothing because it is split. -/
theorem Renders.tells (h : Renders s target (.obj fields) m) :
    ¬Split (.obj fields) ∧ Tells fields m ∨ Split (.obj fields) ∧ Tells [] m := by
  cases h with
  | plain hm hnull =>
      refine .inl ⟨fun hsplit => ?_, hm.tells⟩
      exact absurd (hm.split_iff.1 hsplit).1 (by simp [hnull])
  | nullable hm hnull hks =>
      refine .inl ⟨fun hsplit => ?_, hm.tells.description, hm.tells.default, hm.tells.readOnly,
        hm.tells.writeOnly⟩
      exact absurd (hm.split_iff.1 hsplit).2.1 (by simp [hks])
  | idle hm hnull hks hcombines =>
      refine .inl ⟨fun hsplit => ?_, hm.tells⟩
      exact absurd (hm.split_iff.1 hsplit).2.2 (by simp [hcombines])
  | split hm hnull hks hcombines _ _ _ =>
      exact .inr ⟨hm.split_iff.2 ⟨hnull, hks, hcombines⟩, rfl, rfl, rfl, rfl⟩

/-! ## Fields -/

theorem exists_mem_of_forall₂ {α β : Type} {R : α → β → Prop} {as : List α} {bs : List β}
    (h : List.Forall₂ R as bs) {a : α} (ha : a ∈ as) : ∃ b ∈ bs, R a b := by
  induction h with
  | nil => cases ha
  | @cons a' b _ _ hab _ ih =>
      rcases List.mem_cons.1 ha with rfl | ha
      · exact ⟨b, List.mem_cons_self, hab⟩
      · exact (ih ha).imp fun _ h => ⟨List.mem_cons_of_mem b h.1, h.2⟩

/-- A property that something matches has a field, with what its schema says about itself and, where
    that says nothing, what the normal form says. -/
theorem exists_field_of_asType (hs : Reachable document naming s)
    (hrun : (asType calls naming id).run s = (.ok (some c), t))
    (he : e ∈ (s.arena.schema id).properties.entries) {form : SchemaId}
    (hform : t.form? e.2 = some form) (hlt : e.2 < s.arena.next) :
    ∃ f ∈ c.fields, f.wireName = e.1 ∧
      f.description = (s.arena.schema e.2).description.or (t.arena.schema form).description ∧
      f.default = (s.arena.schema e.2).default.or (t.arena.schema form).default ∧
      f.readOnly = ((s.arena.schema e.2).readOnly || (t.arena.schema form).readOnly) ∧
      f.writeOnly = ((s.arena.schema e.2).writeOnly || (t.arena.schema form).writeOnly) := by
  have hlawful := hs.lawful Arena.upheld_free hereditary_true trivial
  obtain ⟨⟨-, hst⟩, hlisted⟩ := (retains_asType Arena.upheld_free hlawful id).of_ok hrun
  have hmem : e ∈ (s.arena.schema id).properties.entries.filter fun e => (t.form? e.2).isSome :=
    List.mem_filter.2 ⟨he, by simp [hform]⟩
  obtain ⟨f, hf, form', u, taken, hform', -, rfl⟩ :=
    exists_mem_of_forall₂ (hlisted c rfl).made hmem
  rw [form?_eq hform', Option.some.injEq] at hform
  rw [← hst.arena.schema e.2 hlt, ← hform]
  exact ⟨_, hf, rfl, rfl, rfl, rfl, rfl⟩

/-- Let the schema of a property have been read from an object, and let something match it. If the
    schema is not split, the field of the property has the description, the default and the access
    flags that are written in the object. If it is split, what is written there does not count: the
    field has what the normal form says. -/
theorem annotates_of_asType (hs : Reachable document naming s)
    (hrun : (asType calls naming id).run s = (.ok (some c), t))
    (he : e ∈ (s.arena.schema id).properties.entries) {form : SchemaId}
    (hform : t.form? e.2 = some form) (hload : s.loaded.get? p = some e.2)
    (hres : resolve document p = .ok (target, .obj fields))
    (hread : s.arena.schema e.2 ≠ .blank target) :
    ∃ f ∈ c.fields, f.wireName = e.1 ∧ (¬Split (.obj fields) → Annotates fields f) ∧
      (Split (.obj fields) → f.description = (t.arena.schema form).description ∧
        f.default = (t.arena.schema form).default ∧
        f.readOnly = (t.arena.schema form).readOnly ∧
        f.writeOnly = (t.arena.schema form).writeOnly) := by
  obtain ⟨hlt, target', v, hres', hschema⟩ := hs.faithful p e.2 hload
  cases hres.symm.trans hres'
  have hrenders := hschema.resolve_left hread
  obtain ⟨f, hf, hname, hdescription, hdefault, hreadOnly, hwriteOnly⟩ :=
    exists_field_of_asType hs hrun he hform hlt
  refine ⟨f, hf, hname, ?_⟩
  obtain ⟨hsplit, htells⟩ | ⟨hsplit, htells⟩ := hrenders.tells
  · rw [htells.description] at hdescription
    rw [htells.default] at hdefault
    rw [htells.readOnly] at hreadOnly
    rw [htells.writeOnly] at hwriteOnly
    refine ⟨fun _ => ⟨fun text h => ?_, fun v h => ?_, fun h => ?_, fun h => ?_⟩,
      fun h => absurd h hsplit⟩
    · rw [hdescription, h, Option.some_or]
    · rw [hdefault, h, Option.some_or]
    · rw [hreadOnly, h, Bool.true_or]
    · rw [hwriteOnly, h, Bool.true_or]
  · refine ⟨fun h => absurd hsplit h, fun _ => ⟨?_, ?_, ?_, ?_⟩⟩
    · rw [hdescription, htells.description]
      rfl
    · rw [hdefault, htells.default]
      rfl
    · rw [hreadOnly, htells.readOnly]
      rfl
    · rw [hwriteOnly, htells.writeOnly]
      rfl

/-- An object with a property that says about itself who assigns it; `more` are further keywords of
    the property. -/
def assignedPet (more : List (String × Json)) : Json :=
  let pet := Json.obj ([("description", .str "assigned by the server"), ("readOnly", .bool true),
    ("allOf", .arr [.obj [("type", .str "string")]])] ++ more)
  .obj [("type", .str "object"), ("properties", .obj [("pet", pet)])]

/-- The fields of its class, with their descriptions and flags. -/
def assignedFields (more : List (String × Json)) : Option (List (String × Option String × Bool)) :=
  let loaded := ((answer (assignedPet more) .marked 9 (.load .root)).run .empty).2
  let normal := ((answer (assignedPet more) .marked 9 (.normalize 0)).run loaded).2
  (((asType 9 .marked ((normal.form? 0).getD 0)).run normal).1.toOption.join).map fun c =>
    c.fields.map fun f => (f.wireName, f.description, f.readOnly)

-- a property that allows null is split if it has no type besides
example : assignedFields [] = some [("pet", some "assigned by the server", true)] ∧
    assignedFields [("nullable", .bool true)] = some [("pet", none, false)] := by
  decide +kernel

end ApiModel.Session
