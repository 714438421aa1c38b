/-
  ApiModel.Client.Construction.Parameters

  The parameters of operations. Those of a path are worked out once and shared by its operations; an
  operation's own parameter replaces a shared one with the same location and name and takes its
  place. Header and cookie parameters end up as the fields of one metadata class.
-/
import ApiModel.Client.Construction

namespace ApiModel.Client.Construction

/-- The word for the location of a parameter must be known. -/
def readLocation (place : Pointer) (word : String) : BuildWork Location :=
  match Location.ofName? word with
  | some l => return l
  | none => Work.fault (.unsupported place ("unknown parameter location '" ++ word ++ "'"))

/-- The style of a parameter: the given one, which must be known, or the usual one. -/
def readStyle (place : Pointer) (location : Location) : Option String → BuildWork Style
  | none => return .usual location
  | some word =>
    match Style.ofName? word with
    | some s => return s
    | none => Work.fault (.unsupported place ("unknown parameter style '" ++ word ++ "'"))

/-- One parameter; a header that the settings ignore is none. `owner` is what class names of the
    parameter start with. -/
def parameter (b : Setting) (item : Document.OrRef Document.Parameter) (place : Pointer)
    (owner : String) : BuildWork (Option Parameter) := do
  let (place, p) ←
    Work.ofExcept (Document.resolveItem b.document Document.Parameter.shape item place)
  let location ← readLocation place p.location
  if location == .header && b.config.ignoresHeader p.name then
    warn (.ignoredHeader place p.name)
    return none
  -- a path cannot be written without its parameters
  let required := p.required || location == .path
  let (type, mediaType) ←
    payload b place p.schema p.content required (owner ++ Identifier.pascalCase p.name)
  let style ← readStyle place location p.style
  return some {
    name := b.naming.fieldName (p.nameHint.getD p.name)
    wireName := p.name
    location := location
    required := required
    deprecated := p.deprecated
    description := p.description
    type := type
    style := style
    explode := p.explode.getD (style == .form)
    mediaType := mediaType
    pointer := place }

/-- The parameters of a list from an index on. -/
def parametersFrom (b : Setting) (base : Pointer) (owner : String) :
    Nat → List (Document.OrRef Document.Parameter) → BuildWork (List Parameter)
  | _, [] => return []
  | i, item :: rest => do
    let p ← parameter b item (base.index i) owner
    return p.toList ++ (← parametersFrom b base owner (i + 1) rest)

/-- The parameters that the operations of a path share. -/
def pathParameters (b : Setting) (path : String) (item : Document.PathItem) :
    BuildWork (List Parameter) :=
  parametersFrom b (((Pointer.root.push "paths").push path).push "parameters")
    (b.naming.className (Session.derivedName [path])) 0 item.parameters

/-- Parameters by location and name: of several with the same, the last one counts and takes the
    place of the first. -/
def mergeParameters (ps : List Parameter) : List Parameter :=
  (Dict.ofList (ps.map fun p => ((p.location, p.wireName), p))).values

/-- Names made different from each other and from those taken, each by a number if need be. -/
def distinctNames (taken : List String) : List String → List String
  | [] => []
  | name :: rest =>
    let name := firstFree taken (numbered "_" name)
    name :: distinctNames (name :: taken) rest

/-- Parameters with these names. -/
def rename (ps : List Parameter) (names : List String) : List Parameter :=
  List.zipWith (fun p name => { p with name := name }) ps names

/-- The metadata class of an operation, as a parameter: one field for each header or cookie
    parameter. -/
def metadataParameter (b : Setting) (place : Pointer) (classBase name : String)
    (metadata : List Parameter) : BuildWork Parameter := do
  -- one required value makes the whole aggregate required
  let required := metadata.any Parameter.required
  let fields := (rename metadata (distinctNames [] (metadata.map Parameter.name))).map fun p =>
    { name := p.name
      wireName := p.wireName
      type := p.type
      required := p.required
      readOnly := false
      writeOnly := false
      description := p.description
      default := none : Field }
  let classType := TypeExpr.named
    (← syntheticClass b place (classBase ++ "Metadata") fields false)
  return {
    name := name
    wireName := "metadata"
    location := .metadata
    required := required
    deprecated := false
    description := none
    type := if required then classType else .optionalOf classType
    style := .usual .metadata
    explode := false
    mediaType := none
    pointer := place.push "parameters" }

/-- The signature of an operation: its path and query parameters, and the metadata parameter if
    there is any header or cookie parameter. -/
def signature (b : Setting) (place : Pointer) (classBase : String) (ps : List Parameter) :
    BuildWork (List Parameter) := do
  -- the names are made distinct only after merging, so a replaced parameter takes none
  let merged := mergeParameters ps
  let direct := merged.filter fun p => !p.location.isMetadata
  let metadata := merged.filter fun p => p.location.isMetadata
  let names := distinctNames [] (direct.map Parameter.name)
  let direct := rename direct names
  if metadata.isEmpty then return direct
  let name := firstFree names (numbered "_" (b.naming.fieldName "metadata"))
  return direct ++ [← metadataParameter b place classBase name metadata]

end ApiModel.Client.Construction
