/-
  ApiModel.Fault

  Why no model comes about, and what is worth a remark although one does. Each fault is its cause;
  the wording is in `message`. A fault ends the work on the model; a warning is recorded once and
  the work goes on.
-/
import ApiModel.Json.Token
import ApiModel.Pointer

namespace ApiModel

/-- The causes for which a build, or a step of it, fails. -/
inductive Fault where
  /-- References, combinators or containers that lead back to where they started. -/
  | referenceCycle (trail : List Pointer)
  /-- A reference that names no place of the document; the text is the reference or the pointer. -/
  | unresolved (text : String)
  /-- A part of the document that has no model. -/
  | unsupported (place : Pointer) (reason : String)
  /-- An operation without an identifier. -/
  | missingOperationId (method path : String)
  /-- An object of the document that lacks its form; the text says where and how. -/
  | illTyped (text : String)
  /-- A text that is no document. -/
  | malformed (reason : Malformed)
  /-- Settings that cannot be read. -/
  | badConfig

namespace Fault

/-- A trail of pointers, in the order in which they were met. -/
def renderTrail (trail : List Pointer) : String := " -> ".intercalate (trail.map Pointer.render)

/-- The wording of a fault. -/
def message : Fault → String
  | referenceCycle trail => "Reference cycle detected: " ++ renderTrail trail
  | unresolved text => "Pointer not found: " ++ text
  | unsupported place reason => "Unsupported schema at " ++ place.render ++ ": " ++ reason
  | missingOperationId method path => "Operation " ++ method ++ " " ++ path ++ " has no operationId"
  | illTyped text => "Parse error: " ++ text
  | malformed _ => "Parse error: Failed to parse OpenAPI JSON"
  | badConfig => "YAML error"

end Fault

/-- What is worth a remark while a model is built. -/
inductive Warning where
  /-- A schema that no value matches; what used it was left out. -/
  | bottomSchema (place : Pointer)
  /-- Several servers; the first one is used. -/
  | multipleServers (count : Nat) (used : String)
  /-- A header parameter that was left out. -/
  | ignoredHeader (place : Pointer) (name : String)
  /-- A schema keyword that was passed over. -/
  | unsupportedKeyword (place : Pointer) (keyword : String)
  deriving DecidableEq

namespace Warning

/-- The wording of a warning. -/
def message : Warning → String
  | bottomSchema place => "schema at " ++ place.render ++ " can never match and was omitted"
  | multipleServers count used => Text.decimal count ++ " servers declared, using " ++ used
  | ignoredHeader place name => "header parameter '" ++ name ++ "' at " ++ place.render ++ " is ignored"
  | unsupportedKeyword place keyword =>
    "keyword '" ++ keyword ++ "' at " ++ place.render ++ " is not supported"

/-- A warning as an object. -/
def toJson : Warning → Json
  | bottomSchema place => .obj [("kind", .str "bottom_schema"), ("pointer", .str place.render)]
  | multipleServers count used =>
    .obj [("kind", .str "multiple_servers"), ("count", .ofNat count), ("used", .str used)]
  | ignoredHeader place name =>
    .obj [("kind", .str "ignored_header"), ("pointer", .str place.render), ("name", .str name)]
  | unsupportedKeyword place keyword =>
    .obj [("kind", .str "unsupported_keyword"), ("pointer", .str place.render),
      ("keyword", .str keyword)]

end Warning

end ApiModel
