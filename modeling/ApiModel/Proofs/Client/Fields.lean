/-
  ApiModel.Proofs.Client.Fields

  The fields of the classes of a model. Those of schemas and those of operations have distinct
  names. The headers of a response keep the names that they ask for, and two may ask for the same.
-/
import ApiModel.Proofs.Client.Walk

namespace ApiModel.Client

/-- In every class of a model that does not gather the headers of a response, the names of the
    fields are distinct. -/
theorem unambiguous_of_buildWithin {calls : Nat} {document : Json} {config : Config}
    {naming : Naming} {m : Model} (h : buildWithin calls document config naming = .ok m)
    {c : Class} (hc : c ∈ m.classes) (hother : ¬c.GathersHeaders) : c.Unambiguous := by
  obtain ⟨api, -, hbuilt⟩ := built_of_buildWithin h
  exact (hbuilt.tidy c hc).resolve_left hother

/-- A description with one response, two headers of which ask for the same name. -/
def twoRates : Json :=
  let header := Json.obj [("x-name", .str "rate")]
  let response := Json.obj [("headers", .obj [("X-Limit", header), ("X-Remaining", header)])]
  let operation := Json.obj [("operationId", .str "rates"), ("responses", .obj [("200", response)])]
  .obj [("openapi", .str "3.0.0"),
    ("info", .obj [("title", .str "Rates"), ("version", .str "1")]),
    ("paths", .obj [("/rates", .obj [("get", operation)])])]

-- headers of a response are the exception
example : ((buildWithin 8 twoRates .standard .marked).toOption.map fun m =>
    m.classes.map fun c => c.fields.map Field.name) = some [["f_rate", "f_rate"]] := by
  decide +kernel

end ApiModel.Client
