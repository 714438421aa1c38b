/-
  ApiModel.Client.Method

  The methods of operations, in the order in which the operations of one path are listed.
-/
import ApiModel.Document

namespace ApiModel.Client

/-- The method of an operation. -/
inductive Method where
  | get
  | put
  | post
  | delete
  | options
  | head
  | patch
  | trace
  deriving DecidableEq

namespace Method

/-- All methods, in listing order. -/
def all : List Method := [get, put, post, delete, options, head, patch, trace]

/-- The key of the method in a path item. -/
def key : Method → String
  | get => "get"
  | put => "put"
  | post => "post"
  | delete => "delete"
  | options => "options"
  | head => "head"
  | patch => "patch"
  | trace => "trace"

/-- The method as requests name it. -/
def name (m : Method) : String := m.key.toUpper

/-- The operation that a path item declares for the method. -/
def operation? (m : Method) (item : Document.PathItem) : Option Document.Operation :=
  match m with
  | get => item.get
  | put => item.put
  | post => item.post
  | delete => item.delete
  | options => item.options
  | head => item.head
  | patch => item.patch
  | trace => item.trace

/-- The declared operations of a path item, in listing order. -/
def declared (item : Document.PathItem) : List (Method × Document.Operation) :=
  all.filterMap fun m => (m.operation? item).map fun op => (m, op)

end Method

end ApiModel.Client
