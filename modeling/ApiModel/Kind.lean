/-
  ApiModel.Kind

  The seven kinds of document values that a schema tells apart, and sets of them. Integers are
  numbers: a set with the number kind accepts them, and a set with the integer kind alone accepts a
  number when it is whole.
-/
import ApiModel.Json
import ApiModel.Text.Quoted

namespace ApiModel

/-- A kind of document value. -/
inductive Kind where
  | object
  | array
  | string
  | number
  | integer
  | boolean
  | null
  deriving DecidableEq

namespace Kind

/-- All kinds, in the order in which they are listed. -/
def all : List Kind := [.object, .array, .string, .number, .integer, .boolean, .null]

/-- The word for a kind in a schema. -/
def name : Kind → String
  | object => "object"
  | array => "array"
  | string => "string"
  | number => "number"
  | integer => "integer"
  | boolean => "boolean"
  | null => "null"

/-- The kind that a word stands for. -/
def ofName? (word : String) : Option Kind := all.find? fun k => k.name == word

end Kind

/-- A set of kinds, one truth value each. -/
structure KindSet where
  object : Bool
  array : Bool
  string : Bool
  number : Bool
  integer : Bool
  boolean : Bool
  null : Bool
  deriving DecidableEq

namespace KindSet

/-- Whether a kind is a member. -/
def contains (s : KindSet) : Kind → Bool
  | .object => s.object
  | .array => s.array
  | .string => s.string
  | .number => s.number
  | .integer => s.integer
  | .boolean => s.boolean
  | .null => s.null

/-- The set of the kinds with a property. -/
def ofPred (p : Kind → Bool) : KindSet :=
  ⟨p .object, p .array, p .string, p .number, p .integer, p .boolean, p .null⟩

/-- The set without a kind. -/
def empty : KindSet := ofPred fun _ => false

/-- The set of all kinds. -/
def full : KindSet := ofPred fun _ => true

/-- The set of one kind. -/
def single (k : Kind) : KindSet := ofPred (· == k)

/-- A set with one more kind. -/
def insert (s : KindSet) (k : Kind) : KindSet := ofPred fun j => s.contains j || j == k

/-- The set of the kinds of a list. -/
def ofList (ks : List Kind) : KindSet := ks.foldl insert empty

/-- The kinds in both sets. -/
def inter (s t : KindSet) : KindSet := ofPred fun k => s.contains k && t.contains k

/-- The kinds in either set. -/
def union (s t : KindSet) : KindSet := ofPred fun k => s.contains k || t.contains k

/-- Whether there is no member. -/
def isEmpty (s : KindSet) : Bool := s == empty

/-- Whether every member of the first set is one of the second. -/
def isSubset (s t : KindSet) : Bool := Kind.all.all fun k => !s.contains k || t.contains k

/-- The members, in the order in which kinds are listed. -/
def toList (s : KindSet) : List Kind := Kind.all.filter s.contains

/-- Whether there is a member and every member is the number or the integer kind. -/
def isNumeric (s : KindSet) : Bool := !s.isEmpty && s.isSubset (ofList [.number, .integer])

/-- Whether a value is of one of the kinds. -/
def accepts (s : KindSet) : Json → Bool
  | .null => s.null
  | .bool _ => s.boolean
  | .num n => s.number || (n.isIntegral && s.integer)
  | .str _ => s.string
  | .arr _ => s.array
  | .obj _ => s.object

/-- The members as quoted words between braces. -/
def render (s : KindSet) : String :=
  "\x7b" ++ ", ".intercalate (s.toList.map fun k => Text.quoted k.name) ++ "\x7d"

@[simp] theorem contains_ofPred (p : Kind → Bool) (k : Kind) : (ofPred p).contains k = p k := by
  cases k <;> rfl

theorem ext {s t : KindSet} (h : ∀ k, s.contains k = t.contains k) : s = t := by
  obtain ⟨a, b, c, d, e, f, g⟩ := s
  obtain ⟨a', b', c', d', e', f', g'⟩ := t
  have := h .object; have := h .array; have := h .string; have := h .number
  have := h .integer; have := h .boolean; have := h .null
  simp_all [contains]

@[simp] theorem contains_inter (s t : KindSet) (k : Kind) :
    (s.inter t).contains k = (s.contains k && t.contains k) := by simp [inter]

@[simp] theorem contains_union (s t : KindSet) (k : Kind) :
    (s.union t).contains k = (s.contains k || t.contains k) := by simp [union]

end KindSet

end ApiModel
