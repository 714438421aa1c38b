/-
  ApiModel.TypeName

  Names of generated classes: an identifier inside a module, the module as its path of identifiers.
-/

namespace ApiModel

/-- The name of a class inside its module. -/
structure TypeName where
  module : List String
  name : String
  deriving DecidableEq

namespace TypeName

/-- The dotted module path. -/
def modulePath (n : TypeName) : String := ".".intercalate n.module

/-- The dotted path of the class; bare when the module path is empty. -/
def render (n : TypeName) : String :=
  if n.module.isEmpty then n.name else n.modulePath ++ "." ++ n.name

end TypeName

end ApiModel
