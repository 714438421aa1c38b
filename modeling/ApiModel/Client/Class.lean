/-
  ApiModel.Client.Class

  Generated classes: a name, the fields in order, and where the class was derived from. A class
  stands for an object schema, or gathers the header and cookie values of an operation or a
  response.
-/
import ApiModel.Pointer
import ApiModel.TypeExpr.Encode

namespace ApiModel.Client

/-- What a class stands for. -/
inductive ClassBase where
  /-- An object schema. -/
  | model
  /-- Header and cookie values. -/
  | metadata
  deriving DecidableEq

/-- A member of a class. -/
structure Field where
  /-- The identifier of the member. -/
  name : String
  /-- The name on the wire. -/
  wireName : String
  type : TypeExpr
  required : Bool
  readOnly : Bool
  writeOnly : Bool
  description : Option String
  default : Option Json

/-- A generated class. -/
structure Class where
  name : TypeName
  base : ClassBase
  /-- Unknown keys are accepted on the wire. -/
  allowExtra : Bool
  description : Option String
  fields : List Field
  /-- The place the class was derived from. -/
  pointer : Pointer

/-- The field with a name on the wire. -/
def Class.field? (c : Class) (wireName : String) : Option Field :=
  c.fields.find? fun f => f.wireName == wireName

/-- A field as an object. -/
def Field.toJson (f : Field) : Json :=
  .obj [("name", .str f.name), ("alias", .str f.wireName), ("annotation", f.type.toJson),
    ("required", .bool f.required), ("read_only", .bool f.readOnly),
    ("write_only", .bool f.writeOnly), ("description", .ofOption .str f.description),
    ("default", .ofOption id f.default)]

/-- A class as an object. -/
def Class.toJson (c : Class) : Json :=
  .obj [("name", c.name.toJson),
    ("base", .str (match c.base with | .model => "model" | .metadata => "metadata")),
    ("allow_extra", .bool c.allowExtra), ("description", .ofOption .str c.description),
    ("fields", .arr (c.fields.map Field.toJson)), ("pointer", .str c.pointer.render)]

end ApiModel.Client
