/-
  ApiModel.Proofs.Schema.Meaning

  Which values a schema accepts, read off its keywords: its own demands, those that it makes on the
  parts of a value, and those of its combinators. What `multipleOf`, `pattern`, `format`, and
  `uniqueItems` ask for is left open. Nothing here mentions normal forms; a schema keeps its meaning
  when the arena grows.
-/
import ApiModel.Proofs.Json
import ApiModel.Proofs.Schema.Arena

namespace ApiModel

/-- What the keywords ask for that are not looked into. -/
structure Reading where
  multipleOf : Int → Json → Prop
  pattern : String → Json → Prop
  format : String → Json → Prop
  uniqueItems : Json → Prop

/-- The reading that asks for nothing. -/
def Reading.lenient : Reading where
  multipleOf _ _ := True
  pattern _ _ := True
  format _ _ := True
  uniqueItems _ := True

/-- The number as a whole multiple of 2^-1074, exactly. -/
def Number.exact : Number → Int
  | .int k => k * Binary64.unitsPerOne
  | .float x => x.value

namespace Schema

/-- What a schema demands of a value as a whole. -/
structure Admits (rd : Reading) (s : Schema) (v : Json) : Prop where
  kinds : ∀ ks ∈ s.kinds, ks.accepts v = true
  values : ∀ vs ∈ s.values, ∃ w ∈ vs, w.same v = true
  gt : ∀ b ∈ s.gt, ∀ n, v = .num n → b.value < n.exact
  ge : ∀ b ∈ s.ge, ∀ n, v = .num n → b.value ≤ n.exact
  lt : ∀ b ∈ s.lt, ∀ n, v = .num n → n.exact < b.value
  le : ∀ b ∈ s.le, ∀ n, v = .num n → n.exact ≤ b.value
  multipleOf : ∀ b ∈ s.multipleOf, rd.multipleOf b.value v
  minLength : ∀ k ∈ s.minLength, ∀ t, v = .str t → k ≤ t.length
  maxLength : ∀ k ∈ s.maxLength, ∀ t, v = .str t → t.length ≤ k
  pattern : ∀ p ∈ s.pattern, rd.pattern p v
  format : ∀ f ∈ s.format, rd.format f v
  minItems : ∀ k ∈ s.minItems, ∀ xs, v = .arr xs → k ≤ xs.length
  maxItems : ∀ k ∈ s.maxItems, ∀ xs, v = .arr xs → xs.length ≤ k
  uniqueItems : s.uniqueItems = true → rd.uniqueItems v
  required : ∀ fs, v = .obj fs → ∀ k ∈ s.required.elements, (fs.lookup k).isSome = true
  minProperties : ∀ k ∈ s.minProperties, ∀ fs, v = .obj fs → k ≤ fs.length
  maxProperties : ∀ k ∈ s.maxProperties, ∀ fs, v = .obj fs → fs.length ≤ k

/-- A schema that bars further properties allows the objects that have none. -/
def Allows (s : Schema) (v : Json) : Prop :=
  s.extras = some (.allowed false) →
    ∀ fs k w, v = .obj fs → fs.lookup k = some w → s.properties.get? k ≠ none

/-- The schema `c` speaks for the part `w` of the value `v`. -/
inductive Part (s : Schema) (v : Json) (c : SchemaId) (w : Json) : Prop
  | item {xs : List Json} (hv : v = .arr xs) (hc : s.items = some c) (hw : w ∈ xs)
  | property {fs : List (String × Json)} {k : String} (hv : v = .obj fs)
      (hc : s.properties.get? k = some c) (hw : fs.lookup k = some w)
  /-- What is not named is what the further properties have to match. -/
  | extra {fs : List (String × Json)} {k : String} (hv : v = .obj fs)
      (hk : s.properties.get? k = none) (hc : s.extras = some (.matching c))
      (hw : fs.lookup k = some w)

theorem Part.mem_links {s : Schema} {v w : Json} {c : SchemaId} (h : s.Part v c w) :
    c ∈ s.links := by
  cases h with
  | item _ hc _ => exact mem_links_of_items hc
  | property _ hc _ => exact mem_links_of_property hc
  | extra _ _ hc _ => exact mem_links_of_extras hc

end Schema

namespace Arena

variable {rd : Reading} {a b : Arena} {id : SchemaId} {v : Json}

/-- The schema with a number accepts a value. -/
inductive Accepts (rd : Reading) (a : Arena) : SchemaId → Json → Prop
  | intro {id any one : SchemaId} {v : Json} (own : (a.schema id).Admits rd v)
      (allows : (a.schema id).Allows v)
      (parts : ∀ c w, (a.schema id).Part v c w → Accepts rd a c w)
      (allOf : ∀ c ∈ (a.schema id).allOf, Accepts rd a c v)
      (anyMem : (a.schema id).anyOf ≠ [] → any ∈ (a.schema id).anyOf)
      (anyOf : (a.schema id).anyOf ≠ [] → Accepts rd a any v)
      (oneMem : (a.schema id).oneOf ≠ [] → one ∈ (a.schema id).oneOf)
      (oneOf : (a.schema id).oneOf ≠ [] → Accepts rd a one v) : Accepts rd a id v

/-- Some schema of a list accepts the value. -/
def AnyAccepts (rd : Reading) (a : Arena) (ids : List SchemaId) (v : Json) : Prop :=
  ∃ c ∈ ids, Accepts rd a c v

theorem accepts_iff : Accepts rd a id v ↔
    (a.schema id).Admits rd v ∧ (a.schema id).Allows v ∧
      (∀ c w, (a.schema id).Part v c w → Accepts rd a c w) ∧
      (∀ c ∈ (a.schema id).allOf, Accepts rd a c v) ∧
      ((a.schema id).anyOf ≠ [] → AnyAccepts rd a (a.schema id).anyOf v) ∧
      ((a.schema id).oneOf ≠ [] → AnyAccepts rd a (a.schema id).oneOf v) := by
  constructor
  · intro h
    cases h with
    | intro own allows parts allOf anyMem anyOf oneMem oneOf =>
        exact ⟨own, allows, parts, allOf, fun h => ⟨_, anyMem h, anyOf h⟩,
          fun h => ⟨_, oneMem h, oneOf h⟩⟩
  · rintro ⟨own, allows, parts, allOf, anyOf, oneOf⟩
    -- where there are no alternatives, any number will do
    have hpick : ∀ ids : List SchemaId, (ids ≠ [] → AnyAccepts rd a ids v) →
        ∃ c, (ids ≠ [] → c ∈ ids) ∧ (ids ≠ [] → Accepts rd a c v) := by
      intro ids h
      by_cases hids : ids = []
      · exact ⟨0, fun hne => absurd hids hne, fun hne => absurd hids hne⟩
      · obtain ⟨c, hc, hacc⟩ := h hids
        exact ⟨c, fun _ => hc, fun _ => hacc⟩
    obtain ⟨any, anyMem, anyAcc⟩ := hpick _ anyOf
    obtain ⟨one, oneMem, oneAcc⟩ := hpick _ oneOf
    exact .intro own allows parts allOf anyMem anyAcc oneMem oneAcc

/-- What a schema accepts depends on the schemas that it leads to alone. -/
theorem accepts_congr {P : Json → Prop} (ha : a.WellFormed P)
    (hs : ∀ id, id < a.next → b.schema id = a.schema id) (hid : id < a.next) :
    Accepts rd b id v ↔ Accepts rd a id v := by
  have hlink : ∀ {x c}, x < a.next → c ∈ (a.schema x).links → c < a.next :=
    fun {x c} _ hc => (ha.proper x).links c hc
  have hmember : ∀ {x c}, x < a.next → c ∈ (a.schema x).members → c < a.next :=
    fun hx hc => hlink hx (Schema.mem_links_of_member hc)
  -- the induction is on why the value is accepted; what a schema leads to exists if the schema does
  constructor
  · intro h
    induction h with
    | @intro id any one v own allows parts allOf anyMem anyOf oneMem oneOf ihp ihall ihany ihone =>
        rw [hs id hid] at own allows parts allOf anyMem anyOf oneMem oneOf ihp ihall ihany ihone
        refine .intro own allows (fun c w hc => ihp c w hc (hlink hid hc.mem_links))
          (fun c hc => ihall c hc (hmember hid ?_)) anyMem
          (fun hne => ihany hne (hmember hid ?_)) oneMem
          (fun hne => ihone hne (hmember hid ?_))
        · simp [Schema.members, hc]
        · simp [Schema.members, anyMem hne]
        · simp [Schema.members, oneMem hne]
  · intro h
    induction h with
    | @intro id any one v own allows parts allOf anyMem anyOf oneMem oneOf ihp ihall ihany ihone =>
        rw [← hs id hid] at own allows parts allOf anyMem anyOf oneMem oneOf ihp ihall ihany ihone
        have hid' := hs id hid
        refine .intro own allows (fun c w hc => ihp c w hc (hlink hid (hid' ▸ hc.mem_links)))
          (fun c hc => ihall c hc (hmember hid ?_)) anyMem
          (fun hne => ihany hne (hmember hid ?_)) oneMem
          (fun hne => ihone hne (hmember hid ?_))
        · rw [← hid']; simp [Schema.members, hc]
        · rw [← hid']; simp [Schema.members, anyMem hne]
        · rw [← hid']; simp [Schema.members, oneMem hne]

/-- A schema keeps its meaning when the arena grows. -/
theorem Grows.accepts_iff {P : Json → Prop} (h : Grows a b) (ha : a.WellFormed P)
    (hid : id < a.next) : Accepts rd b id v ↔ Accepts rd a id v :=
  accepts_congr ha h.schema hid

/-- The value is accepted by what an answer names; where it names nothing, by nothing. -/
def Met (rd : Reading) (a : Arena) (r : Option SchemaId) (v : Json) : Prop :=
  ∃ n, r = some n ∧ Accepts rd a n v

@[simp] theorem met_some {n : SchemaId} : Met rd a (some n) v ↔ Accepts rd a n v := by
  simp [Met]

@[simp] theorem not_met_none : ¬Met rd a none v := by
  simp [Met]

end Arena

end ApiModel
