/-
  ApiModel.TypeExpr

  Types of value positions: fields, parameters, bodies. They are free of any target language:
  scalars and containers carry the constraints that the wire format puts on them, literals their
  values, and classes are referred to by name. `TypeExpr.unionOf` is the one way in which unions
  come about: it opens nested unions and optionals, drops repetitions, sorts by rendered text, and
  lifts null into one optional wrapper.
-/
import ApiModel.Json.Writer
import ApiModel.Text.Quoted
import ApiModel.TypeName

namespace ApiModel

/-- Scalar types, with those that a text format selects. -/
inductive ScalarKind where
  | string
  | integer
  | number
  | boolean
  | uuid
  | date
  | dateTime
  | time
  | decimal
  | bytes
  deriving DecidableEq

/-- The word for a scalar type in rendered types. -/
def ScalarKind.name : ScalarKind → String
  | string => "string"
  | integer => "integer"
  | number => "number"
  | boolean => "boolean"
  | uuid => "uuid"
  | date => "date"
  | dateTime => "date-time"
  | time => "time"
  | decimal => "decimal"
  | bytes => "bytes"

/-- What the wire format demands of a scalar or a list beyond its type. -/
structure Constraints where
  gt : Option Binary64
  ge : Option Binary64
  lt : Option Binary64
  le : Option Binary64
  multipleOf : Option Binary64
  minLength : Option Nat
  maxLength : Option Nat
  pattern : Option String
  minItems : Option Nat
  maxItems : Option Nat
  uniqueItems : Bool

namespace Constraints

/-- No demand. -/
def none : Constraints :=
  ⟨.none, .none, .none, .none, .none, .none, .none, .none, .none, .none, false⟩

instance : Inhabited Constraints := ⟨none⟩

/-- Equality, numbers by value. -/
def same (a b : Constraints) : Bool :=
  a.gt == b.gt && a.ge == b.ge && a.lt == b.lt && a.le == b.le && a.multipleOf == b.multipleOf &&
    a.minLength == b.minLength && a.maxLength == b.maxLength && a.pattern == b.pattern &&
    a.minItems == b.minItems && a.maxItems == b.maxItems && a.uniqueItems == b.uniqueItems

/-- Whether nothing is demanded. -/
def isEmpty (c : Constraints) : Bool := c.same none

/-- The demands in their order: numbers, counts, the pattern, distinctness. -/
def render (c : Constraints) : String :=
  let number (name : String) (v : Option Binary64) : List String :=
    (v.map fun x => name ++ "=" ++ x.render .plain).toList
  let count (name : String) (v : Option Nat) : List String :=
    (v.map fun n => name ++ "=" ++ Text.decimal n).toList
  ", ".intercalate
    (number "gt" c.gt ++ number "ge" c.ge ++ number "lt" c.lt ++ number "le" c.le ++
      number "multiple_of" c.multipleOf ++ count "min_length" c.minLength ++
      count "max_length" c.maxLength ++ count "min_items" c.minItems ++
      count "max_items" c.maxItems ++
      (c.pattern.map fun p => "pattern=" ++ Text.quoted p).toList ++
      (if c.uniqueItems then ["unique_items"] else []))

end Constraints

/-- The type of a value position. -/
inductive TypeExpr where
  /-- Any value. -/
  | any
  /-- Any object. -/
  | anyObject
  /-- The null value alone. -/
  | null
  | scalar (kind : ScalarKind) (constraints : Constraints)
  /-- One of the listed values. -/
  | literal (values : List Json)
  | list (items : TypeExpr) (constraints : Constraints)
  /-- An object whose values share one type. -/
  | map (values : TypeExpr)
  | tuple (members : List TypeExpr)
  | union (members : List TypeExpr)
  /-- The inner type or null. -/
  | optional (inner : TypeExpr)
  /-- A generated class. -/
  | named (name : TypeName)

namespace TypeExpr

instance : Inhabited TypeExpr := ⟨.any⟩

/-- A scalar without constraints. -/
def bare (kind : ScalarKind) : TypeExpr := .scalar kind .none

/-! ## Equality and text -/

mutual

/-- Equality of types, literal values and numbers by value. -/
def same : TypeExpr → TypeExpr → Bool
  | .any, .any => true
  | .anyObject, .anyObject => true
  | .null, .null => true
  | .scalar k c, .scalar k' c' => k == k' && c.same c'
  | .literal vs, .literal vs' => Json.sameItems vs vs'
  | .list t c, .list t' c' => same t t' && c.same c'
  | .map t, .map t' => same t t'
  | .tuple ts, .tuple ts' => sameAll ts ts'
  | .union ts, .union ts' => sameAll ts ts'
  | .optional t, .optional t' => same t t'
  | .named n, .named n' => n == n'
  | _, _ => false

/-- Member by member equality. -/
def sameAll : List TypeExpr → List TypeExpr → Bool
  | [], [] => true
  | t :: ts, t' :: ts' => same t t' && sameAll ts ts'
  | _, _ => false

end

instance : BEq TypeExpr := ⟨same⟩

/-- A type's word, followed by its constraints between parentheses if there are any. -/
def constrained (word : String) (c : Constraints) : String :=
  if c.isEmpty then word else word ++ "(" ++ c.render ++ ")"

mutual

/-- The text of a type. -/
def render : TypeExpr → String
  | .any => "any"
  | .anyObject => "object"
  | .null => "null"
  | .scalar k c => constrained k.name c
  | .literal vs => "literal<" ++ ", ".intercalate (vs.map Json.write) ++ ">"
  | .list t c => constrained ("list<" ++ render t ++ ">") c
  | .map t => "map<" ++ render t ++ ">"
  | .tuple ts => "tuple<" ++ ", ".intercalate (renderAll ts) ++ ">"
  | .union ts => "union<" ++ ", ".intercalate (renderAll ts) ++ ">"
  | .optional t => "optional<" ++ render t ++ ">"
  | .named n => n.render

/-- The texts of the members. -/
def renderAll : List TypeExpr → List String
  | [] => []
  | t :: ts => render t :: renderAll ts

end

/-! ## Optionals and unions -/

/-- Whether null is among the values of the type, by its outermost form. -/
def isOptional : TypeExpr → Bool
  | .optional _ | .any | .null => true
  | _ => false

/-- The type or null; a type that is optional already stays as it is. -/
def optionalOf (t : TypeExpr) : TypeExpr := if t.isOptional then t else .optional t

mutual

/-- What is left of a type when every union and optional around it is opened, left to right. -/
def leaves : TypeExpr → List TypeExpr
  | .union ts => leavesAll ts
  | .optional t => leaves t
  | t => [t]

/-- The leaves of all members. -/
def leavesAll : List TypeExpr → List TypeExpr
  | [] => []
  | t :: ts => leaves t ++ leavesAll ts

end

mutual

/-- Whether opening the unions and optionals around a type meets an optional or ends in null. -/
def admitsNull : TypeExpr → Bool
  | .union ts => admitsNullAny ts
  | .optional _ => true
  | .null => true
  | _ => false

/-- Whether one of the members admits null. -/
def admitsNullAny : List TypeExpr → Bool
  | [] => false
  | t :: ts => admitsNull t || admitsNullAny ts

end

/-- The types without those that equal an earlier one. -/
def distinct (ts : List TypeExpr) : List TypeExpr :=
  ts.foldl (fun seen t => if seen.any (·.same t) then seen else seen ++ [t]) []

/-- The types in the order of their texts; types with the same text keep their order. -/
def sortByText (ts : List TypeExpr) : List TypeExpr :=
  ((ts.map fun t => (t.render, t)).mergeSort fun a b => !(b.1 < a.1)).map Prod.snd

/-- Whether the type is the one of any value. -/
def isAny : TypeExpr → Bool
  | .any => true
  | _ => false

/-- Whether the type is the one of null. -/
def isNull : TypeExpr → Bool
  | .null => true
  | _ => false

/-- The union of some types. -/
def unionOf (members : List TypeExpr) : TypeExpr :=
  let opened := leavesAll members
  -- any value covers all others, null among them
  if opened.any isAny then .any
  else
    let core := sortByText (distinct (opened.filter fun t => !t.isNull))
    let wrap (t : TypeExpr) : TypeExpr := if admitsNullAny members then optionalOf t else t
    match core with
    -- no member at all, or nothing but null
    | [] => .null
    | [t] => wrap t
    | ts => wrap (.union ts)

/-- The members of a union, or the type itself, behind any optional. -/
def members : TypeExpr → List TypeExpr
  | .optional t => members t
  | .union ts => ts
  | t => [t]

mutual

/-- The classes a type refers to, in order of appearance. -/
def names : TypeExpr → List TypeName
  | .named n => [n]
  | .list t _ => names t
  | .map t => names t
  | .optional t => names t
  | .tuple ts => namesAll ts
  | .union ts => namesAll ts
  | _ => []

/-- The classes that the members refer to. -/
def namesAll : List TypeExpr → List TypeName
  | [] => []
  | t :: ts => names t ++ namesAll ts

end

end TypeExpr

end ApiModel
