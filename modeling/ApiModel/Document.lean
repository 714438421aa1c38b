/-
  ApiModel.Document

  The typed objects of an API description: information, servers, paths with their operations,
  parameters, bodies, responses, and components. Schemas stay raw document values here; they are
  read through their pointers. Every record lists its fields in declared order, which is the order
  in which an array may give them and in which missing ones are reported.
-/
import ApiModel.Document.Shape

namespace ApiModel.Document

/-- An object written in place, or a reference to one elsewhere. -/
inductive OrRef (α : Type) where
  | ref (target : String)
  | item (value : α)

/-- A reference: an object with a text under `$ref`, or an array of one text. -/
def refTarget? : Json → Option String
  | .obj fields => do (← fields.lookup "$ref").text?
  | .arr [.str s] => some s
  | _ => none

/-- A reference if the value is one, and the object otherwise. -/
def orRef {α : Type} (s : Shape α) : Shape (OrRef α) := fun v =>
  match refTarget? v with
  -- a reference wins even where the value would also do as the object
  | some target => .ok (.ref target)
  | none =>
    match s v with
    | .ok a => .ok (.item a)
    | .error _ => .error .neither

open Shape Fields

/-! ## Information and servers -/

/-- What an API is called. -/
structure Info where
  title : String
  version : String
  description : Option String

/-- The reader of information. -/
def Info.shape : Shape Info :=
  record "Info" (Info.mk <$> mandatory "title" text <*> mandatory "version" text <*>
    optional "description" text)

/-- A variable of a server address. -/
structure ServerVariable where
  default : String
  allowed : List String
  description : Option String

/-- The reader of server variables. -/
def ServerVariable.shape : Shape ServerVariable :=
  record "ServerVariable" (ServerVariable.mk <$> mandatory "default" text <*>
    withDefault "enum" (listOf text) [] <*> optional "description" text)

/-- A server address, possibly with variables between braces. -/
structure Server where
  url : String
  description : Option String
  vars : Dict String ServerVariable

/-- The reader of servers. -/
def Server.shape : Shape Server :=
  record "Server" (Server.mk <$> mandatory "url" text <*> optional "description" text <*>
    withDefault "variables" (dictOf ServerVariable.shape) .empty)

/-! ## Parameters, headers and bodies -/

/-- One media type of a body. -/
structure MediaType where
  schema : Option Json

/-- The reader of media types. -/
def MediaType.shape : Shape MediaType :=
  record "MediaType" (MediaType.mk <$> optional "schema" anything)

/-- Media types by name. -/
abbrev Content := Dict String MediaType

/-- The reader of media types by name. -/
def contentShape : Shape Content := dictOf MediaType.shape

/-- A parameter of an operation. -/
structure Parameter where
  name : String
  location : String
  description : Option String
  required : Bool
  deprecated : Bool
  style : Option String
  explode : Option Bool
  schema : Option Json
  content : Option Content
  nameHint : Option String

/-- The reader of parameters. -/
def Parameter.shape : Shape Parameter :=
  record "Parameter" (Parameter.mk <$> mandatory "name" text <*> mandatory "in" text <*>
    optional "description" text <*> withDefault "required" truth false <*>
    withDefault "deprecated" truth false <*> optional "style" text <*> optional "explode" truth <*>
    optional "schema" anything <*> optional "content" contentShape <*> optional "x-name" text)

/-- A header of a response: a parameter without name and place. -/
structure Header where
  description : Option String
  required : Bool
  deprecated : Bool
  schema : Option Json
  content : Option Content
  nameHint : Option String

/-- The reader of headers. -/
def Header.shape : Shape Header :=
  record "Header" (Header.mk <$> optional "description" text <*>
    withDefault "required" truth false <*> withDefault "deprecated" truth false <*>
    optional "schema" anything <*> optional "content" contentShape <*> optional "x-name" text)

/-- The body of a request. -/
structure RequestBody where
  description : Option String
  content : Content
  required : Bool

/-- The reader of request bodies. -/
def RequestBody.shape : Shape RequestBody :=
  record "RequestBody" (RequestBody.mk <$> optional "description" text <*>
    withDefault "content" contentShape .empty <*> withDefault "required" truth false)

/-- A response of an operation. -/
structure Response where
  description : Option String
  headers : Dict String (OrRef Header)
  content : Content

/-- The reader of responses. -/
def Response.shape : Shape Response :=
  record "Response" (Response.mk <$> optional "description" text <*>
    withDefault "headers" (dictOf (orRef Header.shape)) .empty <*>
    withDefault "content" contentShape .empty)

/-! ## Operations and paths -/

/-- Scheme names with the scopes that each has to grant. -/
abbrev Requirement := Dict String (List String)

/-- The reader of lists of requirements. -/
def requirementsShape : Shape (List Requirement) := listOf (dictOf (listOf text))

/-- An operation. -/
structure Operation where
  operationId : Option String
  summary : Option String
  description : Option String
  tags : List String
  deprecated : Bool
  parameters : List (OrRef Parameter)
  requestBody : Option (OrRef RequestBody)
  responses : Dict String (OrRef Response)
  security : Option (List Requirement)

/-- The reader of operations. -/
def Operation.shape : Shape Operation :=
  record "Operation" (Operation.mk <$> optional "operationId" text <*> optional "summary" text <*>
    optional "description" text <*> withDefault "tags" (listOf text) [] <*>
    withDefault "deprecated" truth false <*>
    withDefault "parameters" (listOf (orRef Parameter.shape)) [] <*>
    optional "requestBody" (orRef RequestBody.shape) <*>
    withDefault "responses" (dictOf (orRef Response.shape)) .empty <*>
    optional "security" requirementsShape)

/-- The operations of one path, by method, with the parameters they share. -/
structure PathItem where
  summary : Option String
  description : Option String
  get : Option Operation
  put : Option Operation
  post : Option Operation
  delete : Option Operation
  options : Option Operation
  head : Option Operation
  patch : Option Operation
  trace : Option Operation
  parameters : List (OrRef Parameter)

/-- The reader of path items. -/
def PathItem.shape : Shape PathItem :=
  let operation (name : String) := optional name Operation.shape
  record "PathItem" (PathItem.mk <$> optional "summary" text <*> optional "description" text <*>
    operation "get" <*> operation "put" <*> operation "post" <*> operation "delete" <*>
    operation "options" <*> operation "head" <*> operation "patch" <*> operation "trace" <*>
    withDefault "parameters" (listOf (orRef Parameter.shape)) [])

/-! ## Security schemes and components -/

/-- One way of obtaining a token. -/
structure OAuthFlow where
  authorizationUrl : Option String
  tokenUrl : Option String
  refreshUrl : Option String
  scopes : Dict String String

/-- The reader of token flows. -/
def OAuthFlow.shape : Shape OAuthFlow :=
  record "OAuthFlow" (OAuthFlow.mk <$> optional "authorizationUrl" text <*>
    optional "tokenUrl" text <*> optional "refreshUrl" text <*>
    withDefault "scopes" (dictOf text) .empty)

/-- The token flows of a scheme. -/
structure OAuthFlows where
  implicit : Option OAuthFlow
  password : Option OAuthFlow
  clientCredentials : Option OAuthFlow
  authorizationCode : Option OAuthFlow

/-- The reader of the token flows of a scheme. -/
def OAuthFlows.shape : Shape OAuthFlows :=
  let flow (name : String) := optional name OAuthFlow.shape
  record "OAuthFlows" (OAuthFlows.mk <$> flow "implicit" <*> flow "password" <*>
    flow "clientCredentials" <*> flow "authorizationCode")

/-- A security scheme. -/
structure SecurityScheme where
  type : String
  description : Option String
  name : Option String
  location : Option String
  scheme : Option String
  bearerFormat : Option String
  flows : Option OAuthFlows
  openIdConnectUrl : Option String

/-- The reader of security schemes. -/
def SecurityScheme.shape : Shape SecurityScheme :=
  record "SecurityScheme" (SecurityScheme.mk <$> mandatory "type" text <*>
    optional "description" text <*> optional "name" text <*> optional "in" text <*>
    optional "scheme" text <*> optional "bearerFormat" text <*>
    optional "flows" OAuthFlows.shape <*> optional "openIdConnectUrl" text)

/-- What the description names for reuse. -/
structure Components where
  schemas : Dict String Json
  securitySchemes : Dict String (OrRef SecurityScheme)

/-- The reader of components. -/
def Components.shape : Shape Components :=
  record "Components" (Components.mk <$> withDefault "schemas" (dictOf anything) .empty <*>
    withDefault "securitySchemes" (dictOf (orRef SecurityScheme.shape)) .empty)

/-! ## The whole description -/

/-- A whole API description. -/
structure Api where
  openapi : String
  info : Info
  servers : List Server
  paths : Dict String PathItem
  components : Option Components
  security : Option (List Requirement)
  globalHeaders : List (OrRef Parameter)
  globalResponses : Dict String (OrRef Response)

/-- The reader of API descriptions. -/
def Api.shape : Shape Api :=
  record "OpenApiSpec" (Api.mk <$> mandatory "openapi" text <*> mandatory "info" Info.shape <*>
    withDefault "servers" (listOf Server.shape) [] <*>
    withDefault "paths" (dictOf PathItem.shape) .empty <*>
    optional "components" Components.shape <*> optional "security" requirementsShape <*>
    withDefault "x-global-headers" (listOf (orRef Parameter.shape)) [] <*>
    withDefault "x-global-responses" (dictOf (orRef Response.shape)) .empty)

/-- The fault of an ill-typed object at a place. -/
def illTypedAt (place : Pointer) (m : Mismatch) : Fault :=
  .illTyped ("Invalid object at " ++ place.render ++ ": " ++ m.message)

/-- The typed object that a value at a place gives. -/
def readAt {α : Type} (s : Shape α) (place : Pointer) (v : Json) : Except Fault α :=
  (s v).mapError (illTypedAt place)

end ApiModel.Document
