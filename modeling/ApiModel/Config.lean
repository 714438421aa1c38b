/-
  ApiModel.Config

  The settings of a build: which media types are preferred, which header parameters are left out,
  which further words are reserved, and whether component schemas are emitted that no operation
  uses. Every setting may be missing and then has its usual value; unknown settings are passed over.
-/
import ApiModel.Json.Writer
import ApiModel.Json.Yaml

namespace ApiModel

/-- The settings of a build. -/
structure Config where
  /-- Media types in the order in which they are tried when a body offers several. -/
  preferredMediaTypes : List String
  /-- Header parameters that are left out of signatures. -/
  ignoredHeaders : List String
  /-- Reserved words beside the usual ones. -/
  extraKeywords : List String
  /-- Emit a class for every object schema among the components, used or not. -/
  includeComponentSchemas : Bool

namespace Config

/-- The usual settings. -/
def standard : Config :=
  ⟨["application/json"], ["Accept", "Content-Type", "Authorization"], [], true⟩

instance : Inhabited Config := ⟨standard⟩

/-- The text of a scalar: a setting that is a text takes any scalar as it is written. -/
def scalarText? : Json → Option String
  | .str s => some s
  | .arr _ => none
  | .obj _ => none
  | v => some v.write

/-- A list of texts under a key, or its usual value when the key is missing. -/
def readTexts? (settings : Json) (key : String) (usual : List String) : Option (List String) :=
  match settings.get? key with
  | none => some usual
  | some (.arr items) => items.mapM scalarText?
  | some _ => none

/-- A truth value under a key, or its usual value when the key is missing. -/
def readTruth? (settings : Json) (key : String) (usual : Bool) : Option Bool :=
  match settings.get? key with
  | none => some usual
  | some v => v.truth?

/-- The settings that an object gives; none when it is not an object or a setting is ill-typed. -/
def ofJson? (settings : Json) : Option Config := do
  let _ ← settings.fields?
  return {
    preferredMediaTypes :=
      ← readTexts? settings "preferred_media_types" standard.preferredMediaTypes
    ignoredHeaders := ← readTexts? settings "ignored_headers" standard.ignoredHeaders
    extraKeywords := ← readTexts? settings "extra_keywords" standard.extraKeywords
    includeComponentSchemas :=
      ← readTruth? settings "include_component_schemas" standard.includeComponentSchemas }

/-- The settings that a text gives, read as YAML. -/
def read? (text : String) : Option Config := (Json.readYaml text).toOption.bind ofJson?

/-- The settings as an object. -/
def toJson (c : Config) : Json :=
  .obj [("preferred_media_types", .texts c.preferredMediaTypes),
    ("ignored_headers", .texts c.ignoredHeaders),
    ("extra_keywords", .texts c.extraKeywords),
    ("include_component_schemas", .bool c.includeComponentSchemas)]

/-- Whether a header parameter is left out; letters are compared without their ASCII case. -/
def ignoresHeader (c : Config) (name : String) : Bool :=
  c.ignoredHeaders.any fun h => h.toLower == name.toLower

end Config

end ApiModel
