/-
  ApiModel.Client.Response

  Responses of operations and the statuses that they are declared for: one code, all codes with one
  leading digit, or all others. Responses with an error status are raised; the others make up the
  type that an operation returns.
-/
import ApiModel.Text.Natural
import ApiModel.TypeExpr.Encode

namespace ApiModel.Client

/-- The statuses that a response is declared for. -/
inductive Status where
  | code (n : Nat)
  /-- All codes with this leading digit. -/
  | range (lead : Nat)
  /-- All codes that are not declared otherwise. -/
  | default
  deriving DecidableEq

namespace Status

/-- A leading digit, written as a number below 256. -/
def lead? (cs : List Char) : Option Nat := do
  let n ← Text.natural? 256 cs
  if 1 ≤ n ∧ n ≤ 5 then some n else none

/-- A status code, written as a number below 65536. -/
def code? (cs : List Char) : Option Nat := do
  let n ← Text.natural? 65536 cs
  if 100 ≤ n ∧ n < 600 then some n else none

/-- The statuses that a key names: `default`, a leading digit and `XX` in either case, or a code. -/
def ofName? (key : String) : Option Status :=
  if key == "default" then some default
  else
    -- read from the end, where the mark of a range stands
    match (key.toList.map Char.toUpper).reverse with
    | 'X' :: 'X' :: lead => (lead? lead.reverse).map range
    | _ => (code? key.toList).map code

/-- The key for some statuses. -/
def name : Status → String
  | code n => Text.decimal n
  | range lead => Text.decimal lead ++ "XX"
  | default => "default"

/-- Whether responses with these statuses are raised. -/
def isError : Status → Bool
  | code n => 400 ≤ n
  | range lead => 4 ≤ lead
  | default => false

end Status

/-- A response of an operation. -/
structure Response where
  status : Status
  description : Option String
  mediaType : Option String
  /-- The type of the body; null without content. -/
  body : TypeExpr
  /-- The aggregate of the headers, if there are any. -/
  metadata : Option TypeExpr

namespace Response

/-- A response as an object. -/
def toJson (r : Response) : Json :=
  .obj [("status", .str r.status.name), ("description", .ofOption .str r.description),
    ("media_type", .ofOption .str r.mediaType), ("body", r.body.toJson),
    ("metadata", .ofOption TypeExpr.toJson r.metadata)]

/-- The type that an operation returns: the union over its responses that are not raised, each
    paired with its headers as soon as one of them has any. -/
def returnType (responses : List Response) : TypeExpr :=
  let returned := responses.filter fun r => !r.status.isError
  let paired := returned.any fun r => r.metadata.isSome
  .unionOf (returned.map fun r =>
    if paired then .tuple [r.body, r.metadata.getD .null] else r.body)

end Response

end ApiModel.Client
