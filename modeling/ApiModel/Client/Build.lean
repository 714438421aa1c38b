/-
  ApiModel.Client.Build

  Building the model of a whole description. The typed objects are read first; then come what all
  requests share, the operations path by path, and the component schemas that no operation used. Any
  fault ends the build.
-/
import ApiModel.Client.Construction.Parameters
import ApiModel.Client.Construction.Requirements
import ApiModel.Client.Construction.Responses
import ApiModel.Text.Replace

namespace ApiModel.Client

namespace Construction

/-! ## What all requests share -/

/-- A template with each variable between braces replaced by its default, one variable after the
    other. -/
def fillTemplate (template : String) (vars : Dict String Document.ServerVariable) : String :=
  String.ofList (vars.entries.foldl
    (fun cs (name, v) =>
      Text.replaceAll ('\x7b' :: name.toList ++ ['\x7d']) v.default.toList cs)
    template.toList)

/-- The address of the first server; more servers are worth a warning. -/
def baseUrl : List Document.Server → BuildWork (Option String)
  | [] => return none
  | server :: others => do
    -- servers after the first are mentioned, not used
    let url := fillTemplate server.url server.vars
    if !others.isEmpty then warn (.multipleServers (others.length + 1) url)
    return some url

/-- What is needed to set up a client. -/
def init (b : Setting) (api : Document.Api) : BuildWork Init := do
  let globalHeaders ←
    parametersFrom b (Pointer.root.push "x-global-headers") "Global" 0 api.globalHeaders
  let globalResponses ←
    responses b (Pointer.root.push "x-global-responses") "Global" api.globalResponses.entries
  let defaultSecurity ← (match api.security with
    | some declared => some <$> requirement b declared
    | none => pure none)
  Work.modify fun c => { c with defaultSecurity := defaultSecurity }
  return {
    baseUrl := ← baseUrl api.servers
    globalHeaders := globalHeaders
    globalResponses := globalResponses
    defaultSecurity := defaultSecurity }

/-! ## Operations -/

/-- The id of an operation, which no earlier operation may have. -/
def claimId (place : Pointer) (path : String) (method : Method) (op : Document.Operation) :
    BuildWork String := do
  let some id := op.operationId | Work.fault (.missingOperationId method.name path)
  if ← Work.view fun c => c.operationIds.contains id then
    Work.fault (.unsupported place ("duplicate operationId '" ++ id ++ "'"))
  else
    Work.modify fun c => { c with operationIds := c.operationIds ++ [id] }
    return id

/-- One operation of a path, with the parameters that the path shares. -/
def operation (b : Setting) (path : String) (shared : List Parameter) (method : Method)
    (op : Document.Operation) : BuildWork Operation := do
  let place := ((Pointer.root.push "paths").push path).push method.key
  let id ← claimId place path method op
  let classBase := b.naming.className id
  -- parameters, body and responses come in this order, which gives out the class names
  let own ← parametersFrom b (place.push "parameters") classBase 0 op.parameters
  let parameters ← signature b place classBase (shared ++ own)
  let body ← (match op.requestBody with
    | some item => requestBody b item (place.push "requestBody") classBase
    | none => pure none)
  let responses ← responses b (place.push "responses") classBase op.responses.entries
  let security ← (match op.security with
    | some declared => some <$> requirement b declared
    | none => Work.view Construction.defaultSecurity)
  return {
    name := b.naming.operationName id
    operationId := id
    method := method
    path := path
    summary := op.summary
    description := op.description
    deprecated := op.deprecated
    tags := op.tags
    parameters := parameters
    requestBody := body
    responses := responses
    returnType := Response.returnType responses
    security := security }

/-- The operations of one path. -/
def operationsOf (b : Setting) (path : String) (shared : List Parameter) :
    List (Method × Document.Operation) → BuildWork (List Operation)
  | [] => return []
  | (method, op) :: rest => do
    let o ← operation b path shared method op
    return o :: (← operationsOf b path shared rest)

/-- The operations of several paths. A path without operations is passed over. -/
def operations (b : Setting) : List (String × Document.PathItem) → BuildWork (List Operation)
  | [] => return []
  | (path, item) :: rest => do
    let declared := Method.declared item
    if declared.isEmpty then operations b rest
    else
      -- shared parameters are worked out once, before any operation of the path
      let shared ← pathParameters b path item
      let here ← operationsOf b path shared declared
      return here ++ (← operations b rest)

/-! ## Component schemas -/

/-- Register the classes of the component schemas of some names. -/
def componentSchemas (b : Setting) : List String → BuildWork Unit
  | [] => return ()
  | name :: rest => do
    let place := ((Pointer.root.push "components").push "schemas").push name
    let t ← onSession (Session.typeAt b.document b.calls b.naming place true)
    if t.isNone then warn (.bottomSchema place)
    componentSchemas b rest

/-- Classes by module, the modules in ascending order. -/
def byModule (classes : List Class) : Dict String (List Class) :=
  (classes.foldl
    (fun modules c =>
      let path := c.name.modulePath
      modules.insert path ((modules.get? path).getD [] ++ [c]))
    Dict.empty).sortByKey

/-- The model of a description. -/
def model (b : Setting) (api : Document.Api) : BuildWork Model := do
  let init ← init b api
  let operations ← operations b api.paths.entries
  if b.config.includeComponentSchemas then
    if let some components := api.components then
      componentSchemas b components.schemas.keys
  -- nothing is built after this, so the session gives its classes and warnings away
  let classes ← onSession Session.takeClasses
  let schemes ← Work.view fun c => c.schemes.values
  return {
    title := api.info.title
    version := api.info.version
    init := init
    securitySchemes := schemes
    operations := operations
    modules := byModule classes
    warnings := ← onSession Session.takeWarnings }

end Construction

/-- The typed objects of a description, which must be of a supported version. -/
def readApi (document : Json) : Except Fault Document.Api := do
  let api ← Document.readAt Document.Api.shape .root document
  if "3.".isPrefixOf api.openapi then return api
  else
    throw (.unsupported (Pointer.root.push "openapi")
      ("only OpenAPI 3.x documents are supported, found " ++ api.openapi))

/-- Build the model of a description with a supply of nested calls. -/
def buildWithin (calls : Nat) (document : Json) (config : Config) (naming : Naming) :
    Except Failure Model :=
  match readApi document with
  | .error f => .error (.fault f)
  | .ok api => ((Construction.model ⟨document, config, naming, calls⟩ api).run .empty).1

/-- A supply of nested calls beyond any description that can be worked out at all. -/
def ampleCalls : Nat := 1000000

/-- Build the model of a description with the usual naming. -/
def build (document : Json) (config : Config) : Except Failure Model :=
  buildWithin ampleCalls document config (.escaping config.extraKeywords)

end ApiModel.Client
