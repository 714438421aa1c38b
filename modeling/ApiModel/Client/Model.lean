/-
  ApiModel.Client.Model

  The model of one API client: how it is set up, its operations in document order, and its classes
  by module. It is what a code emitter would work from.
-/
import ApiModel.Client.Class
import ApiModel.Client.Method
import ApiModel.Client.Parameter
import ApiModel.Client.Response
import ApiModel.Client.Security
import ApiModel.Fault

namespace ApiModel.Client

/-- The body of a request. -/
structure RequestBody where
  mediaType : String
  required : Bool
  description : Option String
  type : TypeExpr

/-- An operation. -/
structure Operation where
  /-- The identifier of the operation. -/
  name : String
  operationId : String
  method : Method
  path : String
  summary : Option String
  description : Option String
  deprecated : Bool
  tags : List String
  /-- Path and query parameters, and last the metadata aggregate if there is one. -/
  parameters : List Parameter
  requestBody : Option RequestBody
  /-- All declared responses. -/
  responses : List Response
  /-- The union over the responses that are not raised. -/
  returnType : TypeExpr
  /-- The operation's own requirement, or else the one of the whole description. -/
  security : Option Requirement

/-- What is needed to set up a client. -/
structure Init where
  /-- The address of the first server, its variables replaced. -/
  baseUrl : Option String
  /-- Headers that are sent with every request. -/
  globalHeaders : List Parameter
  /-- Responses that every operation may have. -/
  globalResponses : List Response
  /-- The requirement of operations that declare none. -/
  defaultSecurity : Option Requirement

/-- The model of an API client. -/
structure Model where
  title : String
  version : String
  init : Init
  /-- The schemes that are referred to, each once. -/
  securitySchemes : List SecurityScheme
  /-- The operations in document order. -/
  operations : List Operation
  /-- The classes by dotted module path, in ascending order of paths. -/
  modules : Dict String (List Class)
  warnings : List Warning

/-! ## Looking things up -/

/-- The parameter with a name on the wire. -/
def Operation.parameter? (op : Operation) (wireName : String) : Option Parameter :=
  op.parameters.find? fun p => p.wireName == wireName

/-- The responses that are raised. -/
def Operation.errorResponses (op : Operation) : List Response :=
  op.responses.filter fun r => r.status.isError

namespace Model

/-- The class with a name. -/
def class? (m : Model) (name : TypeName) : Option Class := do
  (← m.modules.get? name.modulePath).find? fun c => c.name == name

/-- The operation with an operation id. -/
def operation? (m : Model) (operationId : String) : Option Operation :=
  m.operations.find? fun op => op.operationId == operationId

/-- The number of classes. -/
def classCount (m : Model) : Nat :=
  m.modules.values.foldl (fun n classes => n + classes.length) 0

end Model

/-! ## Models as document values -/

/-- A request body as an object. -/
def RequestBody.toJson (b : RequestBody) : Json :=
  .obj [("media_type", .str b.mediaType), ("required", .bool b.required),
    ("description", .ofOption .str b.description), ("annotation", b.type.toJson)]

/-- An operation as an object. -/
def Operation.toJson (op : Operation) : Json :=
  .obj [("name", .str op.name), ("operation_id", .str op.operationId),
    ("method", .str op.method.name), ("path", .str op.path),
    ("summary", .ofOption .str op.summary), ("description", .ofOption .str op.description),
    ("deprecated", .bool op.deprecated), ("tags", .texts op.tags),
    ("parameters", .arr (op.parameters.map Parameter.toJson)),
    ("request_body", .ofOption RequestBody.toJson op.requestBody),
    ("responses", .arr (op.responses.map Response.toJson)),
    ("return_type", op.returnType.toJson),
    ("security", .ofOption Requirement.toJson op.security)]

/-- What is needed to set up a client, as an object. -/
def Init.toJson (i : Init) : Json :=
  .obj [("base_url", .ofOption .str i.baseUrl),
    ("global_headers", .arr (i.globalHeaders.map Parameter.toJson)),
    ("global_responses", .arr (i.globalResponses.map Response.toJson)),
    ("default_security", .ofOption Requirement.toJson i.defaultSecurity)]

/-- A model as an object. -/
def Model.toJson (m : Model) : Json :=
  .obj [("title", .str m.title), ("version", .str m.version), ("init", m.init.toJson),
    ("security_schemes", .arr (m.securitySchemes.map SecurityScheme.toJson)),
    ("operations", .arr (m.operations.map Operation.toJson)),
    ("modules", .obj (m.modules.entries.map fun (k, cs) => (k, .arr (cs.map Class.toJson)))),
    ("warnings", .arr (m.warnings.map Warning.toJson))]

end ApiModel.Client
