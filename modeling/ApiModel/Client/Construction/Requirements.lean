/-
  ApiModel.Client.Construction.Requirements

  Security requirements. Every scheme that a requirement names is read from the components once, in
  the order in which schemes are first named.
-/
import ApiModel.Client.Construction

namespace ApiModel.Client.Construction

/-- A part of a security scheme that has to be given. -/
def schemePart {α : Type} (place : Pointer) (type field : String) : Option α → BuildWork α
  | some a => return a
  | none =>
    Work.fault (.unsupported place (type ++ " security scheme without `" ++ field ++ "`"))

/-- The location of an API key: a query, header or cookie parameter. -/
def keyLocation? (word : Option String) : Option Location := do
  let location ← Location.ofName? (← word)
  if location == .path then none else some location

/-- The token flows that a scheme declares, in their usual order. -/
def tokenFlows : Option Document.OAuthFlows → List OAuthFlow
  | none => []
  | some flows =>
    let flow (name : String) (f : Option Document.OAuthFlow) : List OAuthFlow :=
      (f.map fun f => {
        flow := name
        authorizationUrl := f.authorizationUrl
        tokenUrl := f.tokenUrl
        refreshUrl := f.refreshUrl
        scopes := f.scopes.sortByKey }).toList
    flow "implicit" flows.implicit ++ flow "password" flows.password ++
      flow "clientCredentials" flows.clientCredentials ++
      flow "authorizationCode" flows.authorizationCode

/-- The kind of a security scheme at a place. -/
def schemeKind (place : Pointer) (s : Document.SecurityScheme) : BuildWork SchemeKind :=
  match s.type with
  | "apiKey" => do
    let parameter ← schemePart place s.type "name" s.name
    return .apiKey parameter (← schemePart place s.type "in" (keyLocation? s.location))
  | "http" => do
    let scheme ← schemePart place s.type "scheme" s.scheme
    return .http scheme.toLower s.bearerFormat
  | "oauth2" => return .oauth2 (tokenFlows s.flows)
  | "openIdConnect" => do
    return .openIdConnect (← schemePart place s.type "openIdConnectUrl" s.openIdConnectUrl)
  | other =>
    Work.fault (.unsupported place ("unknown security scheme type '" ++ other ++ "'"))

/-- Read a security scheme by name, once. -/
def useScheme (b : Setting) (name : String) : BuildWork Unit := do
  if ← Work.view fun c => c.schemes.contains name then return ()
  let declared := ((Pointer.root.push "components").push "securitySchemes").push name
  let (place, s) ←
    Work.ofExcept (Document.resolveAs b.document Document.SecurityScheme.shape declared)
  -- it is known by the name in the requirement, wherever a reference led
  let kind ← schemeKind place s
  Work.modify fun c => { c with schemes := c.schemes.insert name ⟨name, s.description, kind⟩ }

/-- Read the security schemes of some names. -/
def useSchemes (b : Setting) : List String → BuildWork Unit
  | [] => return ()
  | name :: rest => do
    useScheme b name
    useSchemes b rest

/-- A requirement, its schemes read alternative by alternative. -/
def requirement (b : Setting) (declared : List Document.Requirement) : BuildWork Requirement := do
  useSchemes b (declared.flatMap Dict.keys)
  return ⟨declared.map Dict.sortByKey⟩

end ApiModel.Client.Construction
