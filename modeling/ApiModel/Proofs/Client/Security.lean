/-
  ApiModel.Proofs.Client.Security

  Security is closed: the schemes of a model are those that its requirements name, each once. And
  every requirement is one that stands in the document: an operation carries its own, or that of the
  whole description when it has none.
-/
import ApiModel.Proofs.Client.Walk

namespace ApiModel.Client

open Document

/-- How alternatives are written in a document. -/
def writtenAlternatives (alternatives : List Alternative) : Json :=
  .arr (alternatives.map fun a => .obj (a.entries.map fun (name, scopes) => (name, .texts scopes)))

/-- A requirement has the alternatives that a value writes, in the same order; the schemes of one
    alternative may come in another order. -/
def Requirement.Says (r : Requirement) (v : Json) : Prop :=
  ∃ declared, v = writtenAlternatives declared ∧
    List.Forall₂ (fun a d => a.entries.Perm d.entries) r.alternatives declared

/-- What is carried where `v` is the requirement given: that one, or else `common`. -/
def Carries (common : Option Requirement) (v : Option Json) (r : Option Requirement) : Prop :=
  match v with
  | some v => ∃ own, r = some own ∧ own.Says v
  | none => r = common

/-- The requirement asks for a scheme of this name in one of its alternatives. -/
def Asks (r : Option Requirement) (n : String) : Prop := ∃ x ∈ r, n ∈ x.schemeNames

/-- The security schemes of a model are distinct and are those that its requirements name, and its
    requirements are those of the document. -/
structure Model.Secured (m : Model) (document : Json) : Prop where
  distinct : (m.securitySchemes.map SecurityScheme.name).Nodup
  closed : ∀ n, n ∈ m.securitySchemes.map SecurityScheme.name ↔
    Asks m.init.defaultSecurity n ∨ ∃ o ∈ m.operations, Asks o.security n
  common : Carries none (commonSecurity? document) m.init.defaultSecurity
  operations : List.Forall₂
    (fun d o => Carries m.init.defaultSecurity (ownSecurity? d.operation) o.security)
    (declarations document) m.operations

/-! ## Requirements as they are written -/

theorem eq_written {v : Json} {declared : List Document.Requirement}
    (h : requirementsShape v = .ok declared) : v = writtenAlternatives declared := by
  obtain ⟨items, rfl, hitems⟩ := eq_of_listOf h
  refine congrArg Json.arr (eq_map_of_forall₂ (hitems.imp fun w a hw => ?_))
  obtain ⟨fields, rfl, hfields⟩ := eq_of_dictOf hw
  refine congrArg Json.obj (eq_map_of_forall₂ (hfields.imp fun f e he => ?_))
  obtain ⟨texts, htexts, heq⟩ := eq_of_listOf he.2
  refine Prod.ext he.1 (htexts.trans ?_)
  exact congrArg Json.arr (eq_map_of_forall₂ (heq.imp fun _ _ => eq_of_text))

theorem says_written (declared : List Document.Requirement) :
    Requirement.Says ⟨declared.map Dict.sortByKey⟩ (writtenAlternatives declared) := by
  refine ⟨declared, rfl, ?_⟩
  rw [List.forall₂_map_left_iff]
  exact List.forall₂_same.2 fun d _ => Dict.perm_sortByKey d

/-- What a typed requirement demands is what the value that it was read from says. -/
theorem carries_demand {common : Option Requirement} {v : Json} {i : Nat} {name : String}
    {own : Option (List Document.Requirement)}
    (h : ReadFrom (.nullable requirementsShape) (some none) (member? v i name) own) :
    Carries common (given? v i name) (Construction.demand common own) := by
  have hgiven := h.given
  unfold Carries
  cases hv : given? v i name with
  | none =>
      rw [hv] at hgiven
      rw [show own = none from hgiven]
      rfl
  | some w =>
      rw [hv] at hgiven
      obtain ⟨declared, hdeclared, rfl⟩ := hgiven
      exact ⟨_, rfl, eq_written hdeclared ▸ says_written declared⟩

/-! ## Names of schemes -/

open Construction (demand demandedNames)

variable {naming : Naming} {common : Option Requirement} {n : String}

theorem asks_some {r : Requirement} : Asks (some r) n ↔ n ∈ r.schemeNames :=
  ⟨fun ⟨_, hr, h⟩ => Option.some.inj hr ▸ h, fun h => ⟨r, rfl, h⟩⟩

/-- The names in a requirement are those demanded, or those of the common one. -/
theorem asks_demand {own : Option (List Document.Requirement)} :
    Asks (demand common own) n ↔ n ∈ demandedNames own ∨ (own = none ∧ Asks common n) := by
  cases own with
  | none =>
      refine ⟨fun h => .inr ⟨rfl, h⟩, fun h => ?_⟩
      rcases h with h | ⟨-, h⟩
      · cases h
      · exact h
  | some declared =>
      rw [or_iff_left fun h => nomatch h.1]
      exact asks_some.trans Construction.mem_schemeNames

/-- The names in the requirements of all operations, and in the common one. -/
theorem asks_or_mem_ownNames {es : List (Declaration Document.Operation)} {os : List Operation}
    (h : List.Forall₂ (Made naming common) es os) :
    Asks common n ∨ n ∈ ownNames es ↔ Asks common n ∨ ∃ o ∈ os, Asks o.security n := by
  induction h with
  | nil => simp [ownNames]
  | @cons e o es os hmade _ ih =>
      have ho : Asks o.security n ↔
          n ∈ demandedNames e.operation.security ∨ (e.operation.security = none ∧ Asks common n) :=
        hmade.security ▸ asks_demand
      rw [List.exists_mem_cons_iff, ho]
      show _ ∨ n ∈ demandedNames _ ++ ownNames es ↔ _
      rw [List.mem_append]
      -- an operation without a requirement of its own names only what the common one does
      grind

/-- The security schemes of a model are distinct and are exactly those named by an alternative of
    the common requirement or of the requirement of an operation. The common requirement is the one
    of the document; an operation with a requirement of its own carries the alternatives declared
    there, and one without carries the common requirement. -/
theorem secured_of_buildWithin {calls : Nat} {document : Json} {config : Config}
    {m : Model} (h : buildWithin calls document config naming = .ok m) : m.Secured document := by
  obtain ⟨api, hapi, hbuilt⟩ := built_of_buildWithin h
  have hcommon := (reads_api (shape_of_readApi hapi)).2
  refine ⟨hbuilt.schemes, fun n => ?_, ?_, ?_⟩
  · have hnames : Asks m.init.defaultSecurity n ↔ n ∈ demandedNames api.security := by
      rw [hbuilt.common, asks_demand]
      exact or_iff_left fun ⟨_, _, hr, _⟩ => nomatch hr
    rw [hbuilt.scheme, ← hnames]
    exact asks_or_mem_ownNames hbuilt.operations
  · rw [hbuilt.common]
    exact carries_demand hcommon
  · refine (hbuilt.declared hapi).imp ?_
    rintro d o ⟨e, hread, hmade⟩
    rw [hmade.security]
    exact carries_demand (reads_operation hread.operation).2

/-- A description with a common requirement; one operation carries it, one has a requirement of its
    own, and one does without any. -/
def guarded : Json :=
  let operation (id : String) (own : List (String × Json)) :=
    Json.obj [("get", .obj (("operationId", .str id) :: own))]
  let http := Json.obj [("type", .str "http"), ("scheme", .str "basic")]
  let either := Json.arr [.obj [("token", .texts ["write"]), ("admin", .texts [])], .obj []]
  .obj [("openapi", .str "3.0.0"),
    ("info", .obj [("title", .str "Pets"), ("version", .str "1")]),
    ("security", .arr [.obj [("key", .texts [])]]),
    ("paths", .obj [("/own", operation "own" [("security", either)]),
      ("/usual", operation "usual" []), ("/open", operation "open" [("security", .arr [])])]),
    ("components", .obj [("securitySchemes", .obj [("admin", http), ("key", http),
      ("spare", http), ("token", http)])])]

theorem secured_guarded : ∃ m, buildWithin 8 guarded .standard .marked = .ok m ∧
    m.securitySchemes.map SecurityScheme.name = ["key", "token", "admin"] ∧
    m.Secured guarded := by
  have hnames : ((buildWithin 8 guarded .standard .marked).toOption.map fun m =>
      m.securitySchemes.map SecurityScheme.name) = some ["key", "token", "admin"] := by
    decide +kernel
  cases hm : buildWithin 8 guarded .standard .marked with
  | error e => simp [hm, Except.toOption] at hnames
  | ok m =>
      rw [hm] at hnames
      exact ⟨m, rfl, Option.some.inj hnames, secured_of_buildWithin hm⟩

end ApiModel.Client
