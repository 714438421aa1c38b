/-
  ApiModel.TypeExpr.Encode

  Types as document values: an object with the form of the type under `kind` and its parts under
  their names. Constraints that are not set are left out, and so are constraints altogether when
  none is set.
-/
import ApiModel.TypeExpr

namespace ApiModel

/-- The word for a scalar type in encoded types. -/
def ScalarKind.tag : ScalarKind → String
  | .dateTime => "date_time"
  | k => k.name

/-- A class name as an object. -/
def TypeName.toJson (n : TypeName) : Json :=
  .obj [("module", .texts n.module), ("name", .str n.name)]

/-- The constraints that are set. -/
def Constraints.toJson (c : Constraints) : Json :=
  let number (name : String) (v : Option Binary64) := (v.map fun x => (name, Json.ofBinary64 x)).toList
  let count (name : String) (v : Option Nat) := (v.map fun n => (name, Json.ofNat n)).toList
  .obj (number "gt" c.gt ++ number "ge" c.ge ++ number "lt" c.lt ++ number "le" c.le ++
    number "multiple_of" c.multipleOf ++ count "min_length" c.minLength ++
    count "max_length" c.maxLength ++ (c.pattern.map fun p => ("pattern", Json.str p)).toList ++
    count "min_items" c.minItems ++ count "max_items" c.maxItems ++
    (if c.uniqueItems then [("unique_items", .bool true)] else []))

namespace TypeExpr

/-- The constraints as a field, when there are any. -/
def constraintsField (c : Constraints) : List (String × Json) :=
  if c.isEmpty then [] else [("constraints", c.toJson)]

mutual

/-- A type as an object. -/
def toJson : TypeExpr → Json
  | .any => .obj [("kind", .str "any")]
  | .anyObject => .obj [("kind", .str "any_object")]
  | .null => .obj [("kind", .str "null")]
  | .scalar k c => .obj ([("kind", .str "scalar"), ("scalar", .str k.tag)] ++ constraintsField c)
  | .literal vs => .obj [("kind", .str "literal"), ("values", .arr vs)]
  | .list t c => .obj ([("kind", .str "list"), ("items", toJson t)] ++ constraintsField c)
  | .map t => .obj [("kind", .str "map"), ("values", toJson t)]
  | .tuple ts => .obj [("kind", .str "tuple"), ("members", .arr (toJsonAll ts))]
  | .union ts => .obj [("kind", .str "union"), ("members", .arr (toJsonAll ts))]
  | .optional t => .obj [("kind", .str "optional"), ("inner", toJson t)]
  | .named n => .obj [("kind", .str "named"), ("name", n.toJson)]

/-- The members as objects. -/
def toJsonAll : List TypeExpr → List Json
  | [] => []
  | t :: ts => toJson t :: toJsonAll ts

end

end TypeExpr

end ApiModel
