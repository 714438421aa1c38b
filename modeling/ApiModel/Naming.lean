/-
  ApiModel.Naming

  A naming turns the names of a document into identifiers: one function for classes, one for fields
  and parameters, one for module segments and one for operations. The usual naming escapes every
  name and puts class names in Pascal case first; the marking one marks each identifier with its
  role and escapes nothing.
-/
import ApiModel.Identifier

namespace ApiModel

/-- How names become identifiers. -/
structure Naming where
  /-- The identifier of a class. -/
  className : String → String
  /-- The identifier of a field or parameter. -/
  fieldName : String → String
  /-- The identifier of one segment of a module path. -/
  moduleName : String → String
  /-- The identifier of an operation. -/
  operationName : String → String

namespace Naming

/-- Reversible escaping, with further reserved words. -/
def escaping (extraKeywords : List String) : Naming :=
  let keywords := Identifier.keywords extraKeywords
  { className := fun name => Identifier.escape (Identifier.pascalCase name) keywords
    fieldName := fun name => Identifier.escape name keywords
    moduleName := fun name => Identifier.escape name keywords
    operationName := fun name => Identifier.escape name keywords }

/-- A role mark before the name as it is. -/
def marked : Naming :=
  { className := fun name => "C" ++ name
    fieldName := fun name => "f_" ++ name
    moduleName := fun name => "m_" ++ name
    operationName := fun name => "op_" ++ name }

end Naming

end ApiModel
