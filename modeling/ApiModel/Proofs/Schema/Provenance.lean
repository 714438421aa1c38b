/-
  ApiModel.Proofs.Schema.Provenance

  Where answers come from. Normalizing and conjoining make new schemas, which refer to other new
  schemas; but what the document has and such a schema leads to is led to by the schemas that it was
  made of. To lead to a schema of the document is a trait, so this is a law of answers.
-/
import ApiModel.Proofs.Schema.Trait

namespace ApiModel.Arena

variable {P : Json → Prop} {a b : Arena} {n x y z : SchemaId}

/-- What the document has, `z`, can be reached from `x`. -/
def Leads (a : Arena) (x z : SchemaId) : Prop := Relation.ReflTransGen a.Link x z ∧ a.Raw z

theorem Leads.head (hxy : a.Link x y) (h : a.Leads y z) : a.Leads x z := ⟨.head hxy h.1, h.2⟩

/-- What is not of the document leads somewhere through what it refers to. -/
theorem Leads.source (h : a.Leads x z) (hx : ¬a.Raw x) :
    (∃ c, a.Nests x c ∧ a.Leads c z) ∨ ∃ m, a.Member x m ∧ a.Leads m z := by
  rcases Relation.ReflTransGen.cases_head h.1 with rfl | ⟨y, hxy, hyz⟩
  · exact absurd h.2 hx
  · have hyz : a.Leads y z := ⟨hyz, h.2⟩
    exact (link_iff.1 hxy).imp (fun hy => ⟨y, hy, hyz⟩) fun hy => ⟨y, hy, hyz⟩

/-- What an existing schema leads to is the same in a grown arena. -/
theorem leads_iff (ha : a.WellFormed P) (h : Grows a b) (hx : x < a.next) :
    b.Leads x z ↔ a.Leads x z := by
  unfold Leads
  rw [reach_iff ha h.schema hx]
  exact and_congr_right fun hxz => h.raw_iff (ha.reach_lt hx hxz)

/-- To lead to a schema of the document. -/
def lineage : Trait P where
  Index := SchemaId
  below z := z
  own _ := .none
  Has z a x := a.Leads x z
  has_iff := leads_iff
  of_own := False.elim
  of_part hc h := h.head hc.link
  of_member hm h := h.head hm.link
  source _ := .inr fun _ hraw hz => .inr (hz.source hraw)

theorem inherited_lineage (z : SchemaId) : (lineage (P := P)).Inherited z :=
  fun _ hraw hz => .inr (Leads.source hz hraw)

/-- An answer leads to nothing of the document that the question does not lead to. -/
abbrev provenance : Law P := lineage.law

/-- Answers come from what they answer. -/
theorem upheld_provenance : Upheld (provenance (P := P)) := lineage.upheld

end ApiModel.Arena
