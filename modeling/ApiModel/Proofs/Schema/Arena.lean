/-
  ApiModel.Proofs.Schema.Arena

  What holds of every arena, and how arenas grow. A well-formed arena refers to schemas that exist,
  marks exactly the schemas on the path as under normalization, and calls nothing a normal form that
  does not have the shape of one. It grows by new schemas and new answers only: the schemas that are
  there keep their numbers and their demands, and an answer of the memo stays.
-/
import ApiModel.Proofs.Dict
import ApiModel.Proofs.SortedSet
import ApiModel.Schema.NormalForm
import Mathlib.Logic.Relation

namespace ApiModel

/-! ## Links -/

/-- The schemas that a schema refers to for the parts of a value. -/
def Schema.parts (s : Schema) : List SchemaId :=
  s.items.toList ++ s.properties.values ++ (Arena.extraSchema? s).toList

/-- The schemas that a schema refers to. -/
def Schema.links (s : Schema) : List SchemaId :=
  s.items.toList ++ s.properties.values ++ (Arena.extraSchema? s).toList ++ s.members

theorem Arena.extraSchema?_eq_some {s : Schema} {id : SchemaId} :
    extraSchema? s = some id ↔ s.extras = some (.matching id) := by
  unfold extraSchema?
  split <;> simp_all

namespace Schema

variable {s : Schema} {c : SchemaId}

theorem mem_parts_of_items (h : s.items = some c) : c ∈ s.parts := by simp [parts, h]

theorem mem_parts_of_property {key : String} (h : s.properties.get? key = some c) :
    c ∈ s.parts := by
  simp [parts, Dict.mem_values_of_get? h]

theorem mem_parts_of_extras (h : s.extras = some (.matching c)) : c ∈ s.parts := by
  simp [parts, Arena.extraSchema?_eq_some.2 h]

/-- What is referred to is a part or a member. -/
theorem mem_links_iff : c ∈ s.links ↔ c ∈ s.parts ∨ c ∈ s.members := List.mem_append

theorem mem_links_of_part (h : c ∈ s.parts) : c ∈ s.links := mem_links_iff.2 (.inl h)

theorem mem_links_of_items (h : s.items = some c) : c ∈ s.links :=
  mem_links_of_part (mem_parts_of_items h)

theorem mem_links_of_property {k : String} (h : s.properties.get? k = some c) : c ∈ s.links :=
  mem_links_of_part (mem_parts_of_property h)

theorem mem_links_of_extras (h : s.extras = some (.matching c)) : c ∈ s.links :=
  mem_links_of_part (mem_parts_of_extras h)

theorem mem_links_of_member (h : c ∈ s.members) : c ∈ s.links := mem_links_iff.2 (.inr h)

/-- A schema with a sole child demands no more than its kinds itself. -/
theorem soleChild?_spec (h : s.soleChild? = some c) :
    ({ s.withoutCombinators with kinds := none } : Schema).isUnconstrained = true ∧
      ((s.allOf = [c] ∧ s.anyOf = [] ∧ s.oneOf = []) ∨
        (s.allOf = [] ∧ s.anyOf = [c] ∧ s.oneOf = []) ∨
        (s.allOf = [] ∧ s.anyOf = [] ∧ s.oneOf = [c])) := by
  unfold soleChild? at h
  split at h
  · next only honly =>
      split at h
      · next hfree =>
          cases h
          refine ⟨hfree, ?_⟩
          cases hall : s.allOf <;> cases hany : s.anyOf <;> cases hone : s.oneOf <;>
            simp_all
      · cases h
  · cases h

/-- A sole child is a member. -/
theorem mem_members_of_soleChild? (h : s.soleChild? = some c) : c ∈ s.members := by
  rcases (soleChild?_spec h).2 with ⟨hc, -, -⟩ | ⟨-, hc, -⟩ | ⟨-, -, hc⟩ <;> simp [members, hc]

theorem links_blank (p : Pointer) : (blank p).links = [] := rfl

/-- The schema that stands for the conjunction of others and demands nothing else. -/
def conjunction (place : Pointer) (ids : List SchemaId) : Schema :=
  { blank place with allOf := ids }

theorem links_conjunction (place : Pointer) (ids : List SchemaId) :
    (conjunction place ids).links = ids := by
  simp [links, members, conjunction, blank, Arena.extraSchema?, Dict.values, Dict.empty]

/-- The shape of a normal form. -/
structure IsNormal (s : Schema) : Prop where
  allOf : s.allOf = []
  oneOf : s.oneOf = []
  kinds : s.kinds ≠ none
  satisfiable : s.isBottom = false
  /-- The listed values are of its kinds. -/
  values : ∀ ks vs, s.kinds = some ks → s.values = some vs → ∀ v ∈ vs, ks.accepts v = true
  anyOf : s.anyOf.length ≠ 1

/-- A schema whose links exist and whose keywords are as documents give them: the number kind comes
    with the integer kind, required names ascend, and `P` is known of every listed value. -/
structure Proper (P : Json → Prop) (n : Nat) (s : Schema) : Prop where
  links : ∀ c ∈ s.links, c < n
  keys : s.properties.keys.Nodup
  kinds : ∀ ks, s.kinds = some ks → ks.number = true → ks.integer = true
  values : ∀ vs, s.values = some vs → ∀ v ∈ vs, P v
  required : s.required.Ascending

theorem Proper.mono {P : Json → Prop} {m n : Nat} (h : s.Proper P m) (hmn : m ≤ n) :
    s.Proper P n :=
  { h with links := fun c hc => Nat.lt_of_lt_of_le (h.links c hc) hmn }

/-- The kinds of a schema, all of them where it names none, have the integers with the numbers. -/
theorem Proper.kinds_getD {P : Json → Prop} {n : Nat} {s : Schema} (h : s.Proper P n)
    (hk : (s.kinds.getD .full).number = true) : (s.kinds.getD .full).integer = true := by
  cases hks : s.kinds with
  | none => rfl
  | some ks =>
      rw [hks] at hk
      exact h.kinds ks hks hk

theorem proper_blank (P : Json → Prop) (n : Nat) (p : Pointer) : (blank p).Proper P n where
  links := by simp [links_blank]
  keys := List.nodup_nil
  kinds := by simp [blank]
  values := by simp [blank]
  required := SortedSet.ascending_empty

end Schema

namespace Arena

/-- The schema `x` refers to the schema `y`. -/
def Link (a : Arena) (x y : SchemaId) : Prop := y ∈ (a.schema x).links

/-- The schema `x` combines `y` with others. -/
def Member (a : Arena) (x y : SchemaId) : Prop := y ∈ (a.schema x).members

theorem Member.link {a : Arena} {x y : SchemaId} (h : a.Member x y) : a.Link x y :=
  Schema.mem_links_of_member h

/-- No schema that can be reached has combinators. -/
def Bare (a : Arena) (x : SchemaId) : Prop :=
  ∀ y, Relation.ReflTransGen a.Link x y → (a.schema y).members = []

/-- A schema that is kept as a normal form. -/
def IsForm (a : Arena) (n : SchemaId) : Prop := a.progress.get? n = some (.done (some n))

/-- A schema as the document has it: neither a normal form nor a conjunction put off. -/
def Raw (a : Arena) (x : SchemaId) : Prop := ¬a.IsForm x ∧ a.operands.get? x = none

theorem Bare.members {a : Arena} {x : SchemaId} (h : a.Bare x) : (a.schema x).members = [] :=
  h x .refl

theorem Bare.link {a : Arena} {x y : SchemaId} (h : a.Bare x) (hxy : a.Link x y) : a.Bare y :=
  fun _ hz => h _ (.head hxy hz)

/-! ## Well-formed arenas -/

/-- What holds of every arena of a session; `P` is what is known of listed values. -/
structure WellFormed (P : Json → Prop) (a : Arena) : Prop where
  proper : ∀ id, (a.schema id).Proper P a.next
  known : ∀ id p, a.progress.get? id = some p → id < a.next
  pending : ∀ id, a.progress.get? id = some .inProgress ↔ id ∈ a.pending
  form : ∀ id n, a.progress.get? id = some (.done (some n)) → a.IsForm n
  normal : ∀ n, a.IsForm n → (a.schema n).IsNormal ∧ ∀ b ∈ (a.schema n).anyOf, a.IsForm b
  /-- The normal form of a schema without combinators has none either, and the same links. -/
  plain : ∀ id n, a.progress.get? id = some (.done (some n)) → (a.schema id).members = [] →
    (a.schema n).members = [] ∧ (a.schema n).links = (a.schema id).links
  memo : ∀ x y p r, a.conjunctions.get? (x, y, p) = some r →
    a.IsForm x ∧ a.IsForm y ∧ ∀ n, r = some n → a.IsForm n
  deferred : ∀ os id, a.deferred.get? os = some id → a.operands.get? id = some os
  operands : ∀ id os, a.operands.get? id = some os → id < a.next ∧
    ∃ p, a.schema id = .conjunction p os.elements
  /-- A conjunction that was put off has no such conjunction among its operands. -/
  flat : ∀ id os, a.operands.get? id = some os → ∀ c ∈ os.elements, a.operands.get? c = none
  /-- What the document has refers to what the document has. -/
  raw : ∀ x y, a.Raw x → a.Link x y → a.Raw y
  /-- What was made refers to what was there before it. -/
  older : ∀ x y, ¬a.Raw x → a.Link x y → y < x

/-- A number that is not given out yet stands for a schema that says nothing. -/
theorem schema_of_le (a : Arena) {id : SchemaId} (h : a.next ≤ id) :
    a.schema id = .blank .root := by
  simp only [schema, Array.getD_eq_getD_getElem?, Array.getElem?_eq_none h]
  rfl

namespace WellFormed

variable {P : Json → Prop} {a : Arena} {x y n : SchemaId}

theorem isForm_lt (h : a.WellFormed P) (hn : a.IsForm n) : n < a.next := h.known n _ hn

theorem link_lt (h : a.WellFormed P) (hxy : a.Link x y) : y < a.next := (h.proper x).links y hxy

theorem allOf_lt (h : a.WellFormed P) (hy : y ∈ (a.schema x).allOf) : y < a.next :=
  h.link_lt (Member.link (x := x) (by simp [Member, Schema.members, hy]))

theorem anyOf_lt (h : a.WellFormed P) (hy : y ∈ (a.schema x).anyOf) : y < a.next :=
  h.link_lt (Member.link (x := x) (by simp [Member, Schema.members, hy]))

/-- What is not there yet is raw. -/
theorem raw_of_le (h : a.WellFormed P) (hx : a.next ≤ x) : a.Raw x := by
  refine ⟨fun hn => Nat.not_lt_of_le hx (h.isForm_lt hn), ?_⟩
  cases hops : a.operands.get? x with
  | none => rfl
  | some os => exact absurd (h.operands x os hops).1 (Nat.not_lt_of_le hx)

/-- Everything that an existing schema leads to exists. -/
theorem reach_lt (h : a.WellFormed P) (hx : x < a.next)
    (hxy : Relation.ReflTransGen a.Link x y) : y < a.next := by
  induction hxy with
  | refl => exact hx
  | tail _ hyz _ => exact h.link_lt hyz

/-- What the document has leads to what the document has. -/
theorem raw_reach (h : a.WellFormed P) (hx : a.Raw x) (hxy : Relation.ReflTransGen a.Link x y) :
    a.Raw y := by
  induction hxy with
  | refl => exact hx
  | tail _ hyz ih => exact h.raw _ _ ih hyz

theorem schema_empty (id : SchemaId) : Arena.empty.schema id = .blank .root :=
  schema_of_le _ (Nat.zero_le id)

theorem empty (P : Json → Prop) : Arena.empty.WellFormed P where
  proper id := schema_empty id ▸ Schema.proper_blank P _ _
  known _ _ h := by simp [Arena.empty] at h
  pending _ := by simp [Arena.empty]
  form _ _ h := by simp [Arena.empty] at h
  normal _ h := by simp [IsForm, Arena.empty] at h
  plain _ _ h := by simp [Arena.empty] at h
  memo _ _ _ _ h := by simp [Arena.empty] at h
  deferred _ _ h := by simp [Arena.empty] at h
  operands _ _ h := by simp [Arena.empty] at h
  flat _ _ h := by simp [Arena.empty] at h
  raw _ y _ h := by
    rw [Link, schema_empty, Schema.links_blank] at h
    cases h
  older _ y _ h := by
    rw [Link, schema_empty, Schema.links_blank] at h
    cases h

/-- The normal form of a bare schema is bare. -/
theorem bare_form (h : a.WellFormed P) (hx : a.Bare x)
    (hn : a.progress.get? x = some (.done (some n))) : a.Bare n := by
  obtain ⟨hmembers, hlinks⟩ := h.plain x n hn hx.members
  intro z hz
  rcases Relation.ReflTransGen.cases_head hz with rfl | ⟨y, hny, hyz⟩
  · exact hmembers
  · have hxy : a.Link x y := by
      unfold Link at hny ⊢
      rwa [hlinks] at hny
    exact hx.link hxy z hyz

end WellFormed

/-! ## Growth -/

/-- The later arena `b` has all that `a` has: the schemas, the answers about normal forms, and the
    answers about conjunctions of bare schemas. -/
structure Grows (a b : Arena) : Prop where
  next : a.next ≤ b.next
  schema : ∀ id, id < a.next → b.schema id = a.schema id
  done : ∀ id r, a.progress.get? id = some (.done r) → b.progress.get? id = some (.done r)
  /-- No schema becomes a normal form afterwards. -/
  isForm : ∀ id, id < a.next → b.IsForm id → a.IsForm id
  operands : ∀ id, id < a.next → b.operands.get? id = a.operands.get? id
  bare : ∀ id, id < a.next → a.Bare id → b.Bare id
  kept : ∀ x y p r, x < a.next → y < a.next → a.Bare x → a.Bare y →
    a.conjunctions.get? (x, y, p) = some r → b.conjunctions.get? (x, y, p) = some r

/-- A finished task: the arena has grown, but by nothing of the document, and the path is the one
    before. -/
structure Advances (a b : Arena) : Prop extends Grows a b where
  pending : b.pending = a.pending
  raw : ∀ id, id < b.next → b.Raw id → id < a.next

namespace Grows

variable {a b c : Arena}

theorem refl (a : Arena) : Grows a a where
  next := Nat.le_refl _
  schema _ _ := rfl
  done _ _ h := h
  isForm _ _ h := h
  operands _ _ := rfl
  bare _ _ h := h
  kept _ _ _ _ _ _ _ _ h := h

theorem trans (hab : Grows a b) (hbc : Grows b c) : Grows a c where
  next := Nat.le_trans hab.next hbc.next
  schema id hid := (hbc.schema id (Nat.lt_of_lt_of_le hid hab.next)).trans (hab.schema id hid)
  done id r h := hbc.done id r (hab.done id r h)
  isForm id hid h := hab.isForm id hid (hbc.isForm id (Nat.lt_of_lt_of_le hid hab.next) h)
  operands id hid :=
    (hbc.operands id (Nat.lt_of_lt_of_le hid hab.next)).trans (hab.operands id hid)
  bare id hid h := hbc.bare id (Nat.lt_of_lt_of_le hid hab.next) (hab.bare id hid h)
  kept x y p r hx hy hbx hby h :=
    hbc.kept x y p r (Nat.lt_of_lt_of_le hx hab.next) (Nat.lt_of_lt_of_le hy hab.next)
      (hab.bare x hx hbx) (hab.bare y hy hby) (hab.kept x y p r hx hy hbx hby h)

theorem form (h : Grows a b) {n : SchemaId} (hn : a.IsForm n) : b.IsForm n := h.done n _ hn

/-- Whether a schema is as the document has it does not change. -/
theorem raw_iff (h : Grows a b) {x : SchemaId} (hx : x < a.next) : b.Raw x ↔ a.Raw x := by
  unfold Raw
  rw [h.operands x hx]
  exact and_congr_left fun _ => not_congr ⟨h.isForm x hx, h.form⟩

end Grows

/-- What existing schemas lead to depends on these schemas alone. -/
theorem reach_iff {P : Json → Prop} {a b : Arena} (ha : a.WellFormed P)
    (hs : ∀ id, id < a.next → b.schema id = a.schema id) {x : SchemaId} (hx : x < a.next)
    (y : SchemaId) :
    Relation.ReflTransGen b.Link x y ↔ Relation.ReflTransGen a.Link x y := by
  constructor
  · intro h
    induction h with
    | refl => exact .refl
    | tail _ hyz ih =>
        refine ih.tail ?_
        unfold Link at hyz ⊢
        rwa [hs _ (ha.reach_lt hx ih)] at hyz
  · intro h
    induction h with
    | refl => exact .refl
    | tail hxy hyz ih =>
        refine ih.tail ?_
        unfold Link at hyz ⊢
        rwa [hs _ (ha.reach_lt hx hxy)]

theorem bare_iff {P : Json → Prop} {a b : Arena} (ha : a.WellFormed P)
    (hs : ∀ id, id < a.next → b.schema id = a.schema id) {x : SchemaId} (hx : x < a.next) :
    b.Bare x ↔ a.Bare x := by
  unfold Bare
  refine forall_congr' fun y => ?_
  rw [reach_iff ha hs hx y]
  refine imp_congr_right fun hy => ?_
  rw [hs y (ha.reach_lt hx hy)]

/-- Growth, where it is plain that conjunctions are kept. -/
theorem Grows.of_schemas {P : Json → Prop} {a b : Arena} (ha : a.WellFormed P)
    (hnext : a.next ≤ b.next) (hs : ∀ id, id < a.next → b.schema id = a.schema id)
    (hdone : ∀ id r, a.progress.get? id = some (.done r) → b.progress.get? id = some (.done r))
    (hform : ∀ id, id < a.next → b.IsForm id → a.IsForm id)
    (hops : ∀ id, id < a.next → b.operands.get? id = a.operands.get? id)
    (hkept : ∀ x y p r, a.Bare x → a.Bare y →
      a.conjunctions.get? (x, y, p) = some r → b.conjunctions.get? (x, y, p) = some r) :
    Grows a b where
  next := hnext
  schema := hs
  done := hdone
  isForm := hform
  operands := hops
  bare _ hid := (bare_iff ha hs hid).2
  kept x y p r _ _ hbx hby h := hkept x y p r hbx hby h

instance : IsPreorder Arena Advances where
  refl a := { Grows.refl a with pending := rfl, raw := fun _ hid _ => hid }
  trans _ _ _ hab hbc :=
    { hab.toGrows.trans hbc.toGrows with
      pending := hbc.pending.trans hab.pending
      raw := fun id hid hraw =>
        have hid := hbc.raw id hid hraw
        hab.raw id hid ((hbc.raw_iff hid).1 hraw) }

end Arena

end ApiModel
