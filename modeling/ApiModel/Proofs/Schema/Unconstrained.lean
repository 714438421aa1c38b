/-
  ApiModel.Proofs.Schema.Unconstrained

  Schemas that match every value, keyword by keyword. Other demands than those of such a schema are
  never lost in a conjunction: where the conjunction demands nothing, one side demanded nothing. Only
  one side, since to allow further properties explicitly is a demand of its own, which gives way to
  none.
-/
import ApiModel.Proofs.Schema.Inclusion

namespace ApiModel

namespace Dict

variable {κ α : Type} [DecidableEq κ] {d : Dict κ α}

theorem sameEntries_empty [BEq α] : d.sameEntries .empty = true ↔ d.entries = [] := by
  unfold sameEntries size empty
  cases d.entries with
  | nil => simp
  | cons e es => simp

theorem entries_eq_nil (h : ∀ k, d.contains k = false) : d.entries = [] := by
  refine List.eq_nil_iff_forall_not_mem.2 fun e he => ?_
  have hkey : d.contains e.1 = true := contains_iff.2 (List.mem_map.2 ⟨e, he, rfl⟩)
  rw [h e.1] at hkey
  cases hkey

end Dict

/-- The schema has all kinds, and no keyword besides the access flags. -/
structure Schema.Unconstrained (s : Schema) : Prop where
  kinds : ∀ ks, s.kinds = some ks → ks = .full
  values : s.values = none
  gt : s.gt = none
  ge : s.ge = none
  lt : s.lt = none
  le : s.le = none
  multipleOf : s.multipleOf = none
  minLength : s.minLength = none
  maxLength : s.maxLength = none
  pattern : s.pattern = none
  format : s.format = none
  items : s.items = none
  minItems : s.minItems = none
  maxItems : s.maxItems = none
  uniqueItems : s.uniqueItems = false
  properties : s.properties.entries = []
  required : s.required = .empty
  extras : s.extras = none
  minProperties : s.minProperties = none
  maxProperties : s.maxProperties = none
  allOf : s.allOf = []
  anyOf : s.anyOf = []
  oneOf : s.oneOf = []

theorem Schema.isUnconstrained_iff {s : Schema} :
    s.isUnconstrained = true ↔ s.Unconstrained := by
  have hfull : s.kinds.all (· == .full) = true ↔ ∀ ks, s.kinds = some ks → ks = .full := by
    cases s.kinds <;> simp
  have hnone : ∀ {α : Type} [BEq α] {x : Option α}, (x == none) = true ↔ x = none := by
    intro α _ x
    cases x <;> simp
  unfold isUnconstrained sameDemands
  simp only [Bool.and_eq_true, hfull, blank, hnone, Dict.sameEntries_empty, beq_iff_eq, BEq.refl,
    and_true, true_and, and_assoc]
  constructor
  · rintro ⟨kinds, values, gt, ge, lt, le, multipleOf, minLength, maxLength, pattern, format,
      items, minItems, maxItems, uniqueItems, properties, required, extras, minProperties,
      maxProperties, allOf, anyOf, oneOf⟩
    exact ⟨kinds, values, gt, ge, lt, le, multipleOf, minLength, maxLength, pattern, format, items,
      minItems, maxItems, uniqueItems, properties, required, extras, minProperties, maxProperties,
      allOf, anyOf, oneOf⟩
  · intro h
    exact ⟨h.kinds, h.values, h.gt, h.ge, h.lt, h.le, h.multipleOf, h.minLength, h.maxLength,
      h.pattern, h.format, h.items, h.minItems, h.maxItems, h.uniqueItems, h.properties, h.required,
      h.extras, h.minProperties, h.maxProperties, h.allOf, h.anyOf, h.oneOf⟩

theorem Schema.Unconstrained.withoutCombinators {s : Schema} (h : s.Unconstrained) :
    s.withoutCombinators.Unconstrained :=
  { h with allOf := rfl, anyOf := rfl, oneOf := rfl }

/-- A normal form without alternatives combines nothing. -/
theorem Schema.IsNormal.members_eq_nil {s : Schema} (h : s.IsNormal) (hany : s.anyOf = []) :
    s.members = [] := by
  simp [members, h.allOf, hany, h.oneOf]

namespace Arena

variable {P : Json → Prop} {L : Law P} {t : Arena} {s u own : Schema}

section Keyword

variable {α : Type} {lt : α → α → Bool} {x y : Option α}

theorem larger_eq_none : larger lt x y = none ↔ x = none ∧ y = none := by
  cases x <;> cases y <;> simp [larger]

theorem smaller_eq_none : smaller lt x y = none ↔ x = none ∧ y = none := by
  rw [smaller_eq_larger, larger_eq_none]

theorem commonValues_eq_none {x y : Option (List Json)} :
    commonValues x y = none ↔ x = none ∧ y = none := by
  cases x <;> cases y <;> simp [commonValues]

end Keyword

theorem ItemsJoined.eq_none (h : ItemsJoined L t s u (some none)) :
    s.items = none ∧ u.items = none := by
  generalize hr : some none = r at h
  cases h with
  | @both _ _ z _ _ _ => cases z <;> cases hr
  | one _ =>
      rw [Option.some.injEq, eq_comm, Option.or_eq_none_iff] at hr
      exact hr

/-- Where nothing is said about further properties, no side rules any out, and one side says nothing
    about them either. -/
theorem ExtrasJoined.eq_none (h : ExtrasJoined L t s u none) :
    Arena.isClosed s = false ∧ Arena.isClosed u = false ∧ (s.extras = none ∨ u.extras = none) := by
  have hopen : ¬(Arena.isClosed s = true ∨ Arena.isClosed u = true) := fun hclosed => by
    cases h.isClosed hclosed
  rw [not_or, Bool.not_eq_true, Bool.not_eq_true] at hopen
  refine ⟨hopen.1, hopen.2, ?_⟩
  generalize hr : (none : Option Extras) = r at h
  cases h with
  | left _ => exact .inr rfl
  | right _ => exact .inl rfl
  | closed _ => cases hr
  | both _ _ _ => cases hr

/-- A conjunction that names no property, of sides that rule none out, is one of sides that name
    none. -/
theorem PropertiesJoined.eq_nil {d : Dict String SchemaId}
    (h : PropertiesJoined L t s u (mergedKeys s u) .empty (some d)) (hd : d.entries = [])
    (hs : Arena.isClosed s = false) (hu : Arena.isClosed u = false) :
    s.properties.entries = [] ∧ u.properties.entries = [] := by
  have hnone : ∀ k, ¬(s.properties.contains k = true ∨ u.properties.contains k = true) := by
    intro k hk
    obtain ⟨c, hc, -⟩ := h.named (mem_mergedKeys.2 ⟨hk, by simp [hs], by simp [hu]⟩)
    simp [Dict.get?, hd] at hc
  simp only [not_or, Bool.not_eq_true] at hnone
  exact ⟨Dict.entries_eq_nil fun k => (hnone k).1, Dict.entries_eq_nil fun k => (hnone k).2⟩

theorem eq_empty_of_union {xs ys : SortedSet String} (h : xs.union ys = .empty) :
    xs = .empty ∧ ys = .empty := by
  have hnone : ∀ k, k ∉ xs.elements ∧ k ∉ ys.elements := fun k => by
    rw [← not_or, ← SortedSet.mem_union, h]
    exact List.not_mem_nil
  have hempty : ∀ {zs : SortedSet String}, (∀ k, k ∉ zs.elements) → zs = .empty := fun {zs} hzs => by
    cases zs
    exact congrArg SortedSet.mk (List.eq_nil_iff_forall_not_mem.2 hzs)
  exact ⟨hempty fun k => (hnone k).1, hempty fun k => (hnone k).2⟩

/-- A conjunction demands something where both sides do. -/
theorem OwnJoined.unconstrained (h : OwnJoined L t s u own) (hs : s.members = [])
    (hu : u.members = []) (hown : own.Unconstrained) : s.Unconstrained ∨ u.Unconstrained := by
  simp only [Schema.members, List.append_eq_nil_iff] at hs hu
  obtain ⟨⟨hsall, hsany⟩, hsone⟩ := hs
  obtain ⟨⟨huall, huany⟩, huone⟩ := hu
  cases h with
  | @mk _ i e d hk hi he hd =>
  obtain ⟨place, m, p, f, rfl, ⟨rfl, -⟩, ⟨rfl, -⟩, ⟨rfl, -⟩⟩ := hk
  -- what neither side has is said of both
  have values := commonValues_eq_none.1 hown.values
  have gt := larger_eq_none.1 hown.gt
  have ge := larger_eq_none.1 hown.ge
  have lt := smaller_eq_none.1 hown.lt
  have le := smaller_eq_none.1 hown.le
  have multipleOf := Option.or_eq_none_iff.1 hown.multipleOf
  have minLength := larger_eq_none.1 hown.minLength
  have maxLength := smaller_eq_none.1 hown.maxLength
  have pattern := Option.or_eq_none_iff.1 hown.pattern
  have format := Option.or_eq_none_iff.1 hown.format
  have minItems := larger_eq_none.1 hown.minItems
  have maxItems := smaller_eq_none.1 hown.maxItems
  have uniqueItems := Bool.or_eq_false_iff.1 hown.uniqueItems
  have required := eq_empty_of_union hown.required
  have minProperties := larger_eq_none.1 hown.minProperties
  have maxProperties := smaller_eq_none.1 hown.maxProperties
  obtain rfl : i = none := hown.items
  obtain rfl : e = none := hown.extras
  have items := hi.eq_none
  obtain ⟨hopens, hopenu, hextras⟩ := he.eq_none
  have properties := hd.eq_nil hown.properties hopens hopenu
  have hinter : (s.kinds.getD .full).inter (u.kinds.getD .full) = .full := hown.kinds _ rfl
  have hkinds : ∀ {v : Schema}, v.kinds.getD .full = .full → ∀ ks, v.kinds = some ks → ks = .full :=
    fun hfull ks hks => by simpa [hks] using hfull
  rcases hextras with hextras | hextras
  · exact .inl ⟨hkinds (eq_full_of_inter (KindSet.inter_comm _ _ ▸ hinter)), values.1, gt.1, ge.1,
      lt.1, le.1, multipleOf.1, minLength.1, maxLength.1, pattern.1, format.1, items.1, minItems.1,
      maxItems.1, uniqueItems.1, properties.1, required.1, hextras, minProperties.1,
      maxProperties.1, hsall, hsany, hsone⟩
  · exact .inr ⟨hkinds (eq_full_of_inter hinter), values.2, gt.2, ge.2, lt.2, le.2, multipleOf.2,
      minLength.2, maxLength.2, pattern.2, format.2, items.2, minItems.2, maxItems.2, uniqueItems.2,
      properties.2, required.2, hextras, minProperties.2, maxProperties.2, huall, huany, huone⟩

/-- What has the demands of a schema that demands nothing demands nothing. -/
theorem unconstrained_of_sameDemands (h : own.sameDemands s = true) (hs : s.Unconstrained) :
    own.Unconstrained := by
  have hnone : ∀ {α : Type} [BEq α] {x y : Option α}, (x == y) = true → y = none → x = none := by
    intro α _ x y hxy hy
    subst hy
    cases x with
    | none => rfl
    | some v => cases hxy
  unfold Schema.sameDemands at h
  simp only [Bool.and_eq_true, and_assoc] at h
  obtain ⟨kinds, values, gt, ge, lt, le, multipleOf, minLength, maxLength, pattern, format, items,
    minItems, maxItems, uniqueItems, properties, required, extras, minProperties, maxProperties,
    allOf, anyOf, oneOf, -⟩ := h
  have hempty : s.properties = .empty := congrArg Dict.mk hs.properties
  rw [hempty] at properties
  exact ⟨fun ks hks => hs.kinds ks (eq_of_beq kinds ▸ hks), hnone values hs.values, hnone gt hs.gt,
    hnone ge hs.ge, hnone lt hs.lt, hnone le hs.le, hnone multipleOf hs.multipleOf,
    hnone minLength hs.minLength, hnone maxLength hs.maxLength, hnone pattern hs.pattern,
    hnone format hs.format, hnone items hs.items, hnone minItems hs.minItems,
    hnone maxItems hs.maxItems, (eq_of_beq uniqueItems).trans hs.uniqueItems,
    Dict.sameEntries_empty.1 properties, (eq_of_beq required).trans hs.required,
    hnone extras hs.extras, hnone minProperties hs.minProperties,
    hnone maxProperties hs.maxProperties, (eq_of_beq allOf).trans hs.allOf,
    (eq_of_beq anyOf).trans hs.anyOf, (eq_of_beq oneOf).trans hs.oneOf⟩

end Arena

end ApiModel
