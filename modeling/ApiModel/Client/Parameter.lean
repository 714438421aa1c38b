/-
  ApiModel.Client.Parameter

  Parameters of operations: where they travel, how they are written there, and their types.
-/
import ApiModel.Pointer
import ApiModel.TypeExpr.Encode

namespace ApiModel.Client

/-- Where a parameter travels. -/
inductive Location where
  | path
  | query
  | header
  | cookie
  /-- The aggregate of the header and cookie parameters of an operation. -/
  | metadata
  deriving DecidableEq

namespace Location

/-- The location that a word of the description names. -/
def ofName? : String → Option Location
  | "path" => some path
  | "query" => some query
  | "header" => some header
  | "cookie" => some cookie
  | _ => none

/-- The word for a location. -/
def name : Location → String
  | path => "path"
  | query => "query"
  | header => "header"
  | cookie => "cookie"
  | metadata => "metadata"

/-- Whether parameters there are gathered in the metadata aggregate. -/
def isMetadata : Location → Bool
  | header | cookie | metadata => true
  | _ => false

end Location

/-- How a parameter is written. -/
inductive Style where
  | matrix
  | label
  | form
  | simple
  | spaceDelimited
  | pipeDelimited
  | deepObject
  deriving DecidableEq

namespace Style

/-- All styles. -/
def all : List Style := [matrix, label, form, simple, spaceDelimited, pipeDelimited, deepObject]

/-- The word for a style. -/
def name : Style → String
  | matrix => "matrix"
  | label => "label"
  | form => "form"
  | simple => "simple"
  | spaceDelimited => "spaceDelimited"
  | pipeDelimited => "pipeDelimited"
  | deepObject => "deepObject"

/-- The style that a word names. -/
def ofName? (word : String) : Option Style := all.find? fun s => s.name == word

/-- The usual style at a location. -/
def usual : Location → Style
  | .query | .cookie => form
  | _ => simple

end Style

/-- A parameter of an operation. -/
structure Parameter where
  /-- The identifier in the signature. -/
  name : String
  /-- The name on the wire. -/
  wireName : String
  location : Location
  required : Bool
  deprecated : Bool
  description : Option String
  type : TypeExpr
  style : Style
  explode : Bool
  /-- The media type, when the parameter is described by one. -/
  mediaType : Option String
  pointer : Pointer

/-- A parameter as an object. -/
def Parameter.toJson (p : Parameter) : Json :=
  .obj [("name", .str p.name), ("wire_name", .str p.wireName),
    ("location", .str p.location.name), ("required", .bool p.required),
    ("deprecated", .bool p.deprecated), ("description", .ofOption .str p.description),
    ("annotation", p.type.toJson), ("style", .str p.style.name),
    ("explode", .bool p.explode), ("media_type", .ofOption .str p.mediaType),
    ("pointer", .str p.pointer.render)]

end ApiModel.Client
