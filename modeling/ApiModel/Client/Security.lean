/-
  ApiModel.Client.Security

  Security schemes, and requirements in terms of them: a requirement is a list of alternatives, each
  a set of schemes with the scopes that they have to grant. An alternative without schemes allows
  anonymous access.
-/
import ApiModel.Client.Parameter

namespace ApiModel.Client

/-- One way of obtaining a token. -/
structure OAuthFlow where
  flow : String
  authorizationUrl : Option String
  tokenUrl : Option String
  refreshUrl : Option String
  /-- Scopes with their descriptions, in ascending order. -/
  scopes : Dict String String

/-- The kinds of security schemes. -/
inductive SchemeKind where
  | apiKey (parameter : String) (location : Location)
  | http (scheme : String) (bearerFormat : Option String)
  | oauth2 (flows : List OAuthFlow)
  | openIdConnect (url : String)

/-- A security scheme. -/
structure SecurityScheme where
  name : String
  description : Option String
  kind : SchemeKind

/-- Schemes with their scopes, in ascending order. -/
abbrev Alternative := Dict String (List String)

/-- A security requirement: any one of the alternatives satisfies it. -/
structure Requirement where
  alternatives : List Alternative

/-- The names of the schemes, alternative by alternative. -/
def Requirement.schemeNames (r : Requirement) : List String :=
  r.alternatives.flatMap Dict.keys

/-- A token flow as an object. -/
def OAuthFlow.toJson (f : OAuthFlow) : Json :=
  .obj [("flow", .str f.flow), ("authorization_url", .ofOption .str f.authorizationUrl),
    ("token_url", .ofOption .str f.tokenUrl), ("refresh_url", .ofOption .str f.refreshUrl),
    ("scopes", .obj (f.scopes.entries.map fun (k, v) => (k, .str v)))]

/-- The kind of a security scheme as an object. -/
def SchemeKind.toJson : SchemeKind → Json
  | .apiKey parameter location =>
    .obj [("type", .str "apiKey"), ("parameter", .str parameter), ("location", .str location.name)]
  | .http scheme bearerFormat =>
    .obj [("type", .str "http"), ("scheme", .str scheme),
      ("bearer_format", .ofOption .str bearerFormat)]
  | .oauth2 flows => .obj [("type", .str "oauth2"), ("flows", .arr (flows.map OAuthFlow.toJson))]
  | .openIdConnect url => .obj [("type", .str "openIdConnect"), ("url", .str url)]

/-- A security scheme as an object. -/
def SecurityScheme.toJson (s : SecurityScheme) : Json :=
  .obj [("name", .str s.name), ("description", .ofOption .str s.description),
    ("kind", s.kind.toJson)]

/-- A requirement as an object. -/
def Requirement.toJson (r : Requirement) : Json :=
  .obj [("alternatives", .arr (r.alternatives.map fun a =>
    .obj (a.entries.map fun (k, v) => (k, .texts v))))]

end ApiModel.Client
