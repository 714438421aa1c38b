/-
  ApiModel.Client.Construction

  What the parts of a model are built with: the description, the settings and the naming, which stay
  as they are, and a state of types, security schemes and operation ids that grows. Here are the
  steps that all parts share: the type of a schema at a place, and the choice of a media type.
-/
import ApiModel.Client.Model
import ApiModel.Config
import ApiModel.Schema.Class
import ApiModel.Text.Blank

namespace ApiModel.Client

/-- What stays as it is while a model is built. -/
structure Setting where
  /-- The description as a document value. -/
  document : Json
  config : Config
  naming : Naming
  /-- The supply of nested calls for working out types. -/
  calls : Nat

/-- What grows while a model is built. -/
structure Construction where
  session : Session
  /-- The security schemes by name, in order of first use. -/
  schemes : Dict String SecurityScheme
  operationIds : List String
  defaultSecurity : Option Requirement

/-- Computations on a model under construction. -/
abbrev BuildWork := Work Construction

namespace Construction

/-- Nothing built yet. -/
def empty : Construction := ⟨.empty, .empty, [], none⟩

/-- A computation on the types of a model under construction. -/
def onSession {α : Type} (x : SessionWork α) : BuildWork α :=
  Work.focus Construction.session (fun s c => { c with session := s }) x

/-- Record a warning, once. -/
def warn (w : Warning) : BuildWork Unit := onSession (Session.warn w)

/-- The type of the schema at a place. A schema that nothing matches is reported, and its position
    has the type of null. -/
def schemaType (b : Setting) (place : Pointer) (required : Bool) (classHint : String) :
    BuildWork TypeExpr := do
  -- the suggestion counts only where the schema is written at this very place
  onSession (Session.suggest place classHint)
  match ← onSession (Session.typeAt b.document b.calls b.naming place required) with
  | some t => return t
  | none =>
    warn (.bottomSchema place)
    return .null

/-! ## Media types -/

/-- A media type without its parameters, in lower case. -/
def essence (media : String) : List Char :=
  (Text.trim (media.toList.takeWhile (· != ';'))).map Char.toLower

/-- The media type of a body: the first preferred one that it offers, or else its first one. -/
def pickMedia (config : Config) (content : Document.Content) :
    Option (String × Document.MediaType) :=
  (config.preferredMediaTypes.findSome? fun preferred =>
    content.entries.find? fun e => essence e.1 == essence preferred).or content.entries.head?

/-- The place of the schema of a media type. -/
def mediaSchema (place : Pointer) (media : String) : Pointer :=
  ((place.push "content").push media).push "schema"

/-- The type of a parameter or header, and its media type: it is described by a schema, or by
    exactly one media type. -/
def payload (b : Setting) (place : Pointer) (schema : Option Json)
    (content : Option Document.Content) (required : Bool) (classHint : String) :
    BuildWork (TypeExpr × Option String) :=
  match schema, content with
  | some _, some _ => Work.fault (.unsupported place "both `schema` and `content` are declared")
  | some _, none => do
    return (← schemaType b (place.push "schema") required classHint, none)
  | none, none => return (.any, none)
  | none, some content =>
    match content.entries with
    | [] => return (.any, none)
    | [(media, type)] =>
      if type.schema.isSome then do
        return (← schemaType b (mediaSchema place media) required classHint, some media)
      else return (.any, some media)
    | _ => Work.fault (.unsupported place "`content` must declare exactly one media type")

/-- Register a class for header or cookie values found at a place, in the module of that place. -/
def syntheticClass (b : Setting) (place : Pointer) (base : String) (fields : List Field)
    (allowExtra : Bool) : BuildWork TypeName := do
  let name ← onSession (Session.allocateName b.naming (place.segments.take 1) base)
  onSession (Session.register {
    name := name
    base := .metadata
    allowExtra := allowExtra
    description := none
    fields := fields
    pointer := place })
  return name

end Construction

end ApiModel.Client
