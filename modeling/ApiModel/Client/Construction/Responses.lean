/-
  ApiModel.Client.Construction.Responses

  Request bodies and responses. Each takes the media type that the settings prefer; the headers of a
  response become the fields of a metadata class of its own.
-/
import ApiModel.Client.Construction

namespace ApiModel.Client.Construction

/-- The body of a request; none when it offers no media type. -/
def requestBody (b : Setting) (item : Document.OrRef Document.RequestBody) (place : Pointer)
    (classBase : String) : BuildWork (Option RequestBody) := do
  let (place, body) ←
    Work.ofExcept (Document.resolveItem b.document Document.RequestBody.shape item place)
  let some (media, type) := pickMedia b.config body.content | return none
  let bodyType ←
    if type.schema.isSome then
      schemaType b (mediaSchema place media) body.required (classBase ++ "Request")
    else pure .any
  return some {
    mediaType := media
    required := body.required
    description := body.description
    type := bodyType }

/-- The fields of the headers of a response, without those that the settings ignore. -/
def headerFields (b : Setting) (base : Pointer) (stem : String) :
    List (String × Document.OrRef Document.Header) → BuildWork (List Field)
  | [] => return []
  | (wireName, item) :: rest => do
    if b.config.ignoresHeader wireName then
      warn (.ignoredHeader (base.push wireName) wireName)
      headerFields b base stem rest
    else
      let (place, header) ← Work.ofExcept
        (Document.resolveItem b.document Document.Header.shape item (base.push wireName))
      let (headerType, _) ← payload b place header.schema header.content header.required
        (stem ++ Identifier.pascalCase wireName)
      let field : Field := {
        name := b.naming.fieldName (header.nameHint.getD wireName)
        wireName := wireName
        type := headerType
        required := header.required
        readOnly := false
        writeOnly := false
        description := header.description
        default := none }
      return field :: (← headerFields b base stem rest)

/-- The metadata class of the headers of a response, if it has any. -/
def responseHeaders (b : Setting) (headers : Dict String (Document.OrRef Document.Header))
    (place : Pointer) (stem : String) : BuildWork (Option TypeExpr) := do
  let fields ← headerFields b (place.push "headers") stem headers.entries
  if fields.isEmpty then return none
  return some (.named (← syntheticClass b place (stem ++ "ResponseMetadata") fields true))

/-- The type of the body of a response, and its media type. -/
def responseBody (b : Setting) (content : Document.Content) (place : Pointer) (stem : String) :
    BuildWork (TypeExpr × Option String) :=
  match pickMedia b.config content with
  | none => return (.null, none)
  | some (media, type) =>
    if type.schema.isSome then do
      return (← schemaType b (mediaSchema place media) true (stem ++ "Response"), some media)
    else return (.any, some media)

/-- One response. -/
def response (b : Setting) (key : String) (item : Document.OrRef Document.Response)
    (place : Pointer) (classBase : String) : BuildWork Response := do
  let some status := Status.ofName? key
    | Work.fault (.unsupported place ("invalid response status '" ++ key ++ "'"))
  let (place, r) ←
    Work.ofExcept (Document.resolveItem b.document Document.Response.shape item place)
  let stem := classBase ++ Identifier.pascalCase key
  let (body, mediaType) ← responseBody b r.content place stem
  -- the classes of the body are named before that of the headers
  let metadata ← responseHeaders b r.headers place stem
  return {
    status := status
    description := r.description
    mediaType := mediaType
    body := body
    metadata := metadata }

/-- Several responses, one after the other. -/
def responses (b : Setting) (base : Pointer) (classBase : String) :
    List (String × Document.OrRef Document.Response) → BuildWork (List Response)
  | [] => return []
  | (key, item) :: rest => do
    let r ← response b key item (base.push key) classBase
    return r :: (← responses b base classBase rest)

end ApiModel.Client.Construction
