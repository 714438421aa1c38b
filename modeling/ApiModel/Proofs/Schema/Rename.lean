/-
  ApiModel.Proofs.Schema.Rename

  Schemas under other numbers. Which numbers the schemas of an arena have depends on what was asked
  before; what the algebra does with a schema depends only on which of its numbers are equal. So
  everything that looks at a schema gives the same when the schema is renamed, as long as the new
  names tell apart what the numbers told apart.
-/
import ApiModel.Proofs.Dict
import ApiModel.Proofs.Schema.Arena

namespace ApiModel

/-! ## Values under keys -/

namespace Dict

variable {κ α β : Type}

/-- The dictionary with other values under the same keys. -/
def map (f : α → β) (d : Dict κ α) : Dict κ β := ⟨d.entries.map fun e => (e.1, f e.2)⟩

variable (f : α → β) (d : Dict κ α)

theorem keys_map : (d.map f).keys = d.keys := by
  simp [map, keys]

variable [DecidableEq κ]

theorem lookup_map_snd (es : List (κ × α)) (k : κ) :
    (es.map fun e => (e.1, f e.2)).lookup k = (es.lookup k).map f := by
  induction es with
  | nil => rfl
  | cons e es ih =>
      rw [List.map_cons, List.lookup_cons, List.lookup_cons, ih]
      cases k == e.1 <;> rfl

theorem get?_map (k : κ) : (d.map f).get? k = (d.get? k).map f := lookup_map_snd f d.entries k

theorem contains_map (k : κ) : (d.map f).contains k = d.contains k := by
  rw [contains, contains, get?_map, Option.isSome_map]

theorem put_map (es : List (κ × α)) (k : κ) (v : α) :
    (put k v es).map (fun e => (e.1, f e.2)) = put k (f v) (es.map fun e => (e.1, f e.2)) := by
  induction es with
  | nil => rfl
  | cons e es ih =>
      rw [put, List.map_cons, put]
      split
      · rfl
      · rw [List.map_cons, ih]

theorem insert_map (k : κ) (v : α) : (d.insert k v).map f = (d.map f).insert k (f v) :=
  congrArg Dict.mk (put_map f d.entries k v)

/-- Renamed apart, the values agree where they agreed. -/
theorem sameEntries_map [BEq α] [LawfulBEq α] [BEq β] [LawfulBEq β] {f : α → β} {d d' : Dict κ α}
    (hf : ∀ x ∈ d.values, ∀ y ∈ d'.values, f x = f y → x = y) :
    (d.map f).sameEntries (d'.map f) = d.sameEntries d' := by
  have hsize : ∀ d : Dict κ α, (d.map f).size = d.size := fun d => by simp [map, size]
  unfold sameEntries
  rw [hsize, hsize]
  congr 1
  rw [Bool.eq_iff_iff, List.all_eq_true, List.all_eq_true, map, List.forall_mem_map]
  refine forall₂_congr fun e he => ?_
  have hmem : e.2 ∈ d.values := List.mem_map.2 ⟨e, he, rfl⟩
  rw [get?_map, beq_iff_eq, beq_iff_eq]
  cases hk : d'.get? e.1 with
  | none => simp
  | some v =>
      rw [Option.map_some, Option.some.injEq, Option.some.injEq]
      exact ⟨fun h => (hf e.2 hmem v (mem_values_of_get? hk) h.symm).symm, congrArg f⟩

end Dict

/-! ## Data with numbers of schemas -/

/-- Data that speaks of schemas by their numbers. -/
class Mentions (α : Type) where
  /-- The numbers. -/
  ids : α → List SchemaId
  rename : (SchemaId → SchemaId) → α → α
  rename_congr : ∀ {f g : SchemaId → SchemaId} {a : α}, (∀ x ∈ ids a, f x = g x) →
    rename f a = rename g a

namespace Mentions

instance : Mentions SchemaId where
  ids x := [x]
  rename f x := f x
  rename_congr h := h _ (by simp)

instance {α : Type} [Mentions α] : Mentions (Option α) where
  ids x := x.toList.flatMap ids
  rename f x := x.map (rename f)
  rename_congr := by
    rintro f g (_ | a) h
    · rfl
    · exact congrArg some (rename_congr fun x hx => h x (by simpa using hx))

instance {α : Type} [Mentions α] : Mentions (List α) where
  ids x := x.flatMap ids
  rename f x := x.map (rename f)
  rename_congr := by
    intro f g l h
    refine List.map_congr_left fun a ha => rename_congr fun x hx => h x ?_
    exact List.mem_flatMap.2 ⟨a, ha, hx⟩

instance {α β : Type} [Mentions α] [Mentions β] : Mentions (α × β) where
  ids e := ids e.1 ++ ids e.2
  rename f e := (rename f e.1, rename f e.2)
  rename_congr h := Prod.ext (rename_congr fun x hx => h x (List.mem_append_left _ hx))
    (rename_congr fun x hx => h x (List.mem_append_right _ hx))

instance : Mentions Extras where
  ids
    | .allowed _ => []
    | .matching x => [x]
  rename f
    | .allowed yes => .allowed yes
    | .matching x => .matching (f x)
  rename_congr := by
    rintro f g (_ | x) h
    · rfl
    · exact congrArg Extras.matching (h x (by simp))

instance : Mentions (Dict String SchemaId) where
  ids d := d.values
  rename f d := d.map f
  rename_congr := by
    intro f g d h
    refine congrArg Dict.mk (List.map_congr_left fun e he => ?_)
    rw [h e.2 (List.mem_map.2 ⟨e, he, rfl⟩)]

theorem mem_ids_some {x y : SchemaId} : y ∈ ids (some x) ↔ y = x := by
  simp [ids]

theorem mem_ids_list {x : SchemaId} {l : List SchemaId} : x ∈ ids l ↔ x ∈ l := by
  simp [ids]

end Mentions

namespace Schema

open Mentions (ids rename_congr)

/-- The schema that refers to other schemas by other names. -/
def rename (f : SchemaId → SchemaId) (s : Schema) : Schema :=
  { s with
    items := s.items.map f
    properties := s.properties.map f
    extras := Mentions.rename f s.extras
    allOf := s.allOf.map f
    anyOf := s.anyOf.map f
    oneOf := s.oneOf.map f }

variable {f g : SchemaId → SchemaId} {s s' : Schema}

theorem mem_links : ∀ {c : SchemaId}, c ∈ s.links ↔ s.items = some c ∨ c ∈ s.properties.values ∨
    s.extras = some (.matching c) ∨ c ∈ s.members := by
  intro c
  simp [links, Arena.extraSchema?_eq_some]

theorem mem_members : ∀ {c : SchemaId}, c ∈ s.members ↔ c ∈ s.allOf ∨ c ∈ s.anyOf ∨
    c ∈ s.oneOf := by
  simp [members]

theorem rename_id (s : Schema) : s.rename id = s := by
  have hextras : Mentions.rename id s.extras = s.extras := by
    rcases s.extras with _ | e
    · rfl
    · cases e <;> rfl
  unfold rename
  rw [hextras]
  simp [Dict.map]

theorem rename_rename (s : Schema) (f g : SchemaId → SchemaId) :
    (s.rename f).rename g = s.rename (g ∘ f) := by
  have hextras : Mentions.rename g (Mentions.rename f s.extras) =
      Mentions.rename (g ∘ f) s.extras := by
    rcases s.extras with _ | e
    · rfl
    · cases e <;> rfl
  unfold rename
  rw [hextras]
  simp [Dict.map, Function.comp_def]

/-- Names of what the schema refers to are all that counts. -/
theorem schema_rename_congr (h : ∀ x ∈ s.links, f x = g x) : s.rename f = s.rename g := by
  have hmember : ∀ x, x ∈ s.members → f x = g x := fun x hx => h x (mem_links_of_member hx)
  unfold rename
  congr 1
  · exact Option.map_congr fun x hx => h x (mem_links_of_items hx)
  · exact rename_congr (a := s.properties) fun x hx => h x (mem_links.2 (.inr (.inl hx)))
  · refine rename_congr (a := s.extras) fun x hx => h x ?_
    cases he : s.extras with
    | none => simp [he, ids] at hx
    | some e =>
        cases e with
        | allowed yes => simp [he, ids] at hx
        | matching y =>
            simp only [he, ids, Option.toList_some, List.flatMap_cons, List.flatMap_nil,
              List.append_nil, List.mem_singleton] at hx
            exact hx ▸ mem_links_of_extras he
  · exact List.map_congr_left fun x hx => hmember x (mem_members.2 (.inl hx))
  · exact List.map_congr_left fun x hx => hmember x (mem_members.2 (.inr (.inl hx)))
  · exact List.map_congr_left fun x hx => hmember x (mem_members.2 (.inr (.inr hx)))

instance : Mentions Schema where
  ids := links
  rename := rename
  rename_congr := schema_rename_congr

theorem isBottom_rename : (s.rename f).isBottom = s.isBottom := rfl

theorem trimValues_rename : Arena.trimValues (s.rename f) = (Arena.trimValues s).rename f := by
  unfold Arena.trimValues
  rw [show (s.rename f).values = s.values from rfl, show (s.rename f).kinds = s.kinds from rfl]
  split <;> rfl

theorem extras_rename_eq {yes : Bool} :
    (s.rename f).extras = some (.allowed yes) ↔ s.extras = some (.allowed yes) := by
  show Mentions.rename f s.extras = _ ↔ _
  rcases s.extras with _ | _ | _ <;> simp [Mentions.rename]

theorem isClosed_rename : Arena.isClosed (s.rename f) = Arena.isClosed s := by
  unfold Arena.isClosed
  rw [Bool.eq_iff_iff, beq_iff_eq, beq_iff_eq, extras_rename_eq]

theorem extraSchema?_rename : Arena.extraSchema? (s.rename f) = (Arena.extraSchema? s).map f := by
  have hextras : (s.rename f).extras = Mentions.rename f s.extras := rfl
  unfold Arena.extraSchema?
  rw [hextras]
  rcases s.extras with _ | _ | _ <;> rfl

/-- The renamed schema refers to the names of what the schema refers to. -/
theorem links_rename : (s.rename f).links = s.links.map f := by
  have hvalues : (s.rename f).properties.values = s.properties.values.map f := by
    simp [rename, Dict.values, Dict.map, Function.comp_def]
  have hitems : (s.rename f).items.toList = s.items.toList.map f := Option.toList_map ..
  have hmembers : (s.rename f).members = s.members.map f := by
    simp [rename, members]
  have hextra : (Arena.extraSchema? (s.rename f)).toList =
      (Arena.extraSchema? s).toList.map f := by
    rw [extraSchema?_rename, Option.toList_map]
  unfold links
  rw [hitems, hvalues, hextra, hmembers]
  simp

theorem mergedKeys_rename :
    Arena.mergedKeys (s.rename f) (s'.rename f) = Arena.mergedKeys s s' := by
  have hkeys : ∀ s : Schema, (s.rename f).properties.keys = s.properties.keys := fun s =>
    Dict.keys_map f s.properties
  have hcontains : ∀ (s : Schema) k, (s.rename f).properties.contains k = s.properties.contains k :=
    fun s k => Dict.contains_map f s.properties k
  unfold Arena.mergedKeys
  simp only [hkeys, hcontains, isClosed_rename]

/-- The names tell apart what the schemas refer to. -/
def ToldApart (f : SchemaId → SchemaId) (s s' : Schema) : Prop :=
  ∀ x ∈ s.links, ∀ y ∈ s'.links, f x = f y → x = y

theorem map_beq_map {f : SchemaId → SchemaId} {l l' : List SchemaId}
    (hf : ∀ x ∈ l, ∀ y ∈ l', f x = f y → x = y) : (l.map f == l'.map f) = (l == l') := by
  rw [Bool.eq_iff_iff, beq_iff_eq, beq_iff_eq]
  refine ⟨fun h => ?_, congrArg (List.map f)⟩
  induction l generalizing l' with
  | nil =>
      cases l' with
      | nil => rfl
      | cons y l' => cases h
  | cons x l ih =>
      cases l' with
      | nil => cases h
      | cons y l' =>
          obtain ⟨hxy, hl⟩ := List.cons.inj h
          rw [hf x (by simp) y (by simp) hxy,
            ih (fun u hu v hv => hf u (by simp [hu]) v (by simp [hv])) hl]

theorem optionMap_beq {f : SchemaId → SchemaId} {o o' : Option SchemaId}
    (hf : ∀ x ∈ o, ∀ y ∈ o', f x = f y → x = y) : (o.map f == o'.map f) = (o == o') := by
  rw [Bool.eq_iff_iff, beq_iff_eq, beq_iff_eq]
  refine ⟨fun h => ?_, congrArg (Option.map f)⟩
  cases o with
  | none => cases o' with
    | none => rfl
    | some y => cases h
  | some x => cases o' with
    | none => cases h
    | some y => rw [hf x rfl y rfl (Option.some.inj h)]

theorem extras_beq {f : SchemaId → SchemaId} {e e' : Option Extras}
    (hf : ∀ x y, e = some (.matching x) → e' = some (.matching y) → f x = f y → x = y) :
    (Mentions.rename f e == Mentions.rename f e') = (e == e') := by
  rw [Bool.eq_iff_iff, beq_iff_eq, beq_iff_eq]
  refine ⟨fun h => ?_, congrArg (Mentions.rename f)⟩
  rcases e with _ | _ | x <;> rcases e' with _ | _ | y <;>
    simp only [Mentions.rename, Option.map_none, Option.map_some, Option.some.injEq,
      Extras.matching.injEq, Extras.allowed.injEq, reduceCtorEq] at h ⊢
  · exact h
  · exact hf x y rfl rfl h

/-- Demands are the same under names that tell the children apart. -/
theorem sameDemands_rename (hf : ToldApart f s s') :
    (s.rename f).sameDemands (s'.rename f) = s.sameDemands s' := by
  have hmember : ∀ x ∈ s.members, ∀ y ∈ s'.members, f x = f y → x = y := fun x hx y hy =>
    hf x (mem_links_of_member hx) y (mem_links_of_member hy)
  have hitems : ((s.rename f).items == (s'.rename f).items) = (s.items == s'.items) :=
    optionMap_beq fun x hx y hy => hf x (mem_links_of_items hx) y (mem_links_of_items hy)
  have hproperties : (s.rename f).properties.sameEntries (s'.rename f).properties =
      s.properties.sameEntries s'.properties :=
    Dict.sameEntries_map fun x hx y hy =>
      hf x (mem_links.2 (.inr (.inl hx))) y (mem_links.2 (.inr (.inl hy)))
  have hextras : ((s.rename f).extras == (s'.rename f).extras) = (s.extras == s'.extras) :=
    extras_beq fun x y hx hy => hf x (mem_links_of_extras hx) y (mem_links_of_extras hy)
  have hallOf : ((s.rename f).allOf == (s'.rename f).allOf) = (s.allOf == s'.allOf) :=
    map_beq_map fun x hx y hy => hmember x (mem_members.2 (.inl hx)) y (mem_members.2 (.inl hy))
  have hanyOf : ((s.rename f).anyOf == (s'.rename f).anyOf) = (s.anyOf == s'.anyOf) :=
    map_beq_map fun x hx y hy =>
      hmember x (mem_members.2 (.inr (.inl hx))) y (mem_members.2 (.inr (.inl hy)))
  have honeOf : ((s.rename f).oneOf == (s'.rename f).oneOf) = (s.oneOf == s'.oneOf) :=
    map_beq_map fun x hx y hy =>
      hmember x (mem_members.2 (.inr (.inr hx))) y (mem_members.2 (.inr (.inr hy)))
  unfold sameDemands
  rw [hitems, hproperties, hextras, hallOf, hanyOf, honeOf]
  rfl

theorem isUnconstrained_rename : (s.rename f).isUnconstrained = s.isUnconstrained := by
  unfold isUnconstrained
  have htold : ToldApart f s { blank s.pointer with
      kinds := s.kinds, readOnly := s.readOnly, writeOnly := s.writeOnly } := by
    rintro x - y ⟨⟩
  exact congrArg (s.kinds.all (· == .full) && ·) (sameDemands_rename htold)

theorem soleChild?_rename : (s.rename f).soleChild? = s.soleChild?.map f := by
  have hunconstrained : ({ (s.rename f).withoutCombinators with kinds := none } :
      Schema).isUnconstrained = ({ s.withoutCombinators with kinds := none } :
      Schema).isUnconstrained :=
    isUnconstrained_rename (f := f) (s := { s.withoutCombinators with kinds := none })
  have hfilter : [(s.rename f).allOf, (s.rename f).anyOf, (s.rename f).oneOf].filter
      (fun l => !l.isEmpty) = ([s.allOf, s.anyOf, s.oneOf].filter fun l => !l.isEmpty).map
      (List.map f) := by
    have hempty : ∀ l : List SchemaId, (l.map f).isEmpty = l.isEmpty := fun l => by cases l <;> rfl
    rw [show [(s.rename f).allOf, (s.rename f).anyOf, (s.rename f).oneOf] =
      [s.allOf, s.anyOf, s.oneOf].map (List.map f) from rfl, List.filter_map]
    congr 2
    funext l
    exact congrArg (!·) (hempty l)
  unfold soleChild?
  rw [hfilter, hunconstrained]
  generalize [s.allOf, s.anyOf, s.oneOf].filter (fun l => !l.isEmpty) = lists
  -- one list with one member is what counts; the names are where they were
  rcases lists with _ | ⟨_ | ⟨c, _ | _⟩, _ | _⟩
  case cons.cons.nil.nil =>
    dsimp only [List.map]
    split <;> rfl
  all_goals rfl

end Schema

end ApiModel
