/-
  ApiModel.Proofs.Schema.Facet

  Child schemas part by part. Where schemas do not restrict unnamed properties, each part of a value
  is spoken for by at most one child schema of each side, and a conjunction has for it what the two
  come to together, or the only one there is.
-/
import ApiModel.Proofs.Schema.Keywords
import ApiModel.Proofs.Schema.Rename
import ApiModel.Proofs.Schema.Solver

namespace ApiModel

/-- A part of a value for which a schema can name a child schema. -/
inductive Facet where
  | items
  | property (key : String)

/-- The child schema that is named for a part. -/
def Schema.childFor (s : Schema) : Facet → Option SchemaId
  | .items => s.items
  | .property k => s.properties.get? k

namespace Arena

variable {P : Json → Prop} {L : Law P} {t : Arena} {c d z : SchemaId} {f : Facet}
  {s u own : Schema}

theorem mem_parts_of_childFor (h : s.childFor f = some c) : c ∈ s.parts := by
  cases f with
  | items => exact Schema.mem_parts_of_items h
  | property k => exact Schema.mem_parts_of_property h

theorem mem_links_of_childFor (h : s.childFor f = some c) : c ∈ s.links :=
  Schema.mem_links_of_part (mem_parts_of_childFor h)

/-- Schemas with the same parts name the same child schemas. -/
theorem childFor_congr (h : SameParts s u) (f : Facet) : s.childFor f = u.childFor f := by
  cases f with
  | items => exact h.items
  | property k => exact h.properties k

theorem childFor_rename (ℓ : SchemaId → SchemaId) (s : Schema) (f : Facet) :
    (s.rename ℓ).childFor f = (s.childFor f).map ℓ := by
  cases f with
  | items => rfl
  | property k => exact Dict.get?_map ℓ s.properties k

theorem childFor_trimValues : (trimValues s).childFor f = s.childFor f := by
  obtain ⟨vs, hvs, -⟩ := trimValues_eq s
  rw [hvs]
  cases f <;> rfl

theorem childFor_baseOf : (baseOf s).childFor f = s.childFor f := by cases f <;> rfl

theorem childFor_branches {p : Pointer} {bs : List SchemaId} :
    ({ s with pointer := p, anyOf := bs } : Schema).childFor f = s.childFor f := by
  cases f <;> rfl

theorem childFor_conjunction {p : Pointer} {ids : List SchemaId} :
    (Schema.conjunction p ids).childFor f = none := by
  cases f <;> rfl

theorem childFor_kindsAlone {p : Pointer} {ks : KindSet} :
    (kindsAlone p ks).childFor f = none := by
  cases f <;> rfl

/-- A schema that demands nothing names no child schemas. -/
theorem childFor_of_isUnconstrained (h : s.isUnconstrained = true)
    (hkeys : s.properties.keys.Nodup) : s.childFor f = none := by
  rw [childFor_congr (sameShape_of_isUnconstrained h hkeys).toSameParts]
  cases f <;> rfl

theorem Unrestricted.extraSchema? (h : Unrestricted s.extras) : Arena.extraSchema? s = none := by
  unfold Arena.extraSchema?
  rcases h with h | h <;> rw [h]

theorem Unrestricted.isClosed (h : Unrestricted s.extras) : Arena.isClosed s = false := by
  unfold Arena.isClosed
  rcases h with h | h <;> rw [h] <;> rfl

theorem unrestricted_rename (ℓ : SchemaId → SchemaId) (s : Schema) :
    Unrestricted (s.rename ℓ).extras ↔ Unrestricted s.extras := by
  unfold Unrestricted
  rw [Schema.extras_rename_eq]
  refine or_congr_left ?_
  exact Option.map_eq_none_iff

/-- The child schema that a conjunction names for a part. -/
inductive FacetJoined (L : Law P) (t : Arena) (s u : Schema) (f : Facet) : SchemaId → Prop
  | both {c d z : SchemaId} (hc : s.childFor f = some c) (hd : u.childFor f = some d)
      (hz : ChildJoined L t c d (some z)) : FacetJoined L t s u f z
  | left {c : SchemaId} (hc : s.childFor f = some c) (hd : u.childFor f = none) :
      FacetJoined L t s u f c
  | right {d : SchemaId} (hc : s.childFor f = none) (hd : u.childFor f = some d) :
      FacetJoined L t s u f d

section Unrestricted

variable (hs : Unrestricted s.extras) (hu : Unrestricted u.extras)
include hs hu

theorem PropertyJoined.facet {k : String} (h : PropertyJoined L t s u k (some z)) :
    FacetJoined L t s u (.property k) z := by
  have hnone : ∀ {x : Schema} {e}, Unrestricted x.extras → x.extras ≠ some (.matching e) :=
    fun hx he => by rcases hx with h | h <;> rw [h] at he <;> cases he
  generalize hr : some z = r at h
  cases h with
  | both hc hd hz => exact .both hc hd (hr ▸ hz)
  | leftExtra _ _ he _ => exact absurd he (hnone hu)
  | left hc hd _ => cases hr; exact .left hc hd
  | rightExtra _ _ he _ => exact absurd he (hnone hs)
  | right hc hd _ => cases hr; exact .right hc hd

/-- A conjunction leaves unnamed properties alone if both sides do. -/
theorem OwnJoined.unrestricted (h : OwnJoined L t s u own) : Unrestricted own.extras := by
  cases h with
  | mk _ _ he _ =>
      cases he with
      | left _ => exact hu
      | right _ => exact hs
      | closed hclosed => rw [hs.isClosed, hu.isClosed] at hclosed; simp at hclosed
      | both hx _ _ => rcases hs with h | h <;> rw [h] at hx <;> cases hx

theorem OwnJoined.facet (h : OwnJoined L t s u own) (hz : own.childFor f = some z) :
    FacetJoined L t s u f z := by
  cases h with
  | @mk k i e dict hk hi he hd =>
      cases f with
      | property key => exact (hd.joined hz).2.facet hs hu
      | items =>
          obtain rfl : i = some z := hz
          generalize hr : some (some z) = r at hi
          cases hi with
          | both hc hd hj =>
              obtain ⟨z', rfl, hz'⟩ := Option.map_eq_some_iff.1 hr.symm
              cases hz'
              exact .both hc hd hj
          | one hone =>
              rcases Option.or_eq_some_iff.1 (Option.some.inj hr).symm with hc | ⟨hc, hd⟩
              · refine .left hc (hone.resolve_left fun h => ?_)
                cases hc.symm.trans h
              · exact .right hc hd

/-- What one side names, the conjunction names. -/
theorem OwnJoined.exists_childFor (h : OwnJoined L t s u own)
    (hc : s.childFor f = some c ∨ u.childFor f = some c) : ∃ z, own.childFor f = some z := by
  cases h with
  | @mk k i e dict hk hi he hd =>
      cases f with
      | items =>
          generalize hr : some i = r at hi
          cases hi with
          | both _ _ _ =>
              obtain ⟨z, rfl, hz⟩ := Option.map_eq_some_iff.1 hr.symm
              exact ⟨z, hz.symm⟩
          | one _ =>
              obtain rfl := Option.some.inj hr
              show ∃ z, s.items.or u.items = some z
              rcases hc with (hc : s.items = some c) | (hc : u.items = some c)
              · exact ⟨c, by rw [hc, Option.some_or]⟩
              · cases hitems : s.items with
                | none => exact ⟨c, by rw [hc, Option.none_or]⟩
                | some c' => exact ⟨c', rfl⟩
      | property key =>
          have hmem : key ∈ mergedKeys s u := by
            refine mem_mergedKeys.2 ⟨hc.imp Dict.contains_of_get? Dict.contains_of_get?, ?_, ?_⟩
            · simp [hs.isClosed]
            · simp [hu.isClosed]
          obtain ⟨z, hz, -⟩ := hd.named hmem
          exact ⟨z, hz⟩

/-- A property that nothing can match is named on both sides. -/
theorem PropertyJoined.clash {k : String} (h : PropertyJoined L t s u k none) :
    ∃ c d, s.childFor (.property k) = some c ∧ u.childFor (.property k) = some d ∧
      ChildJoined L t c d none := by
  cases h with
  | both hc hd hz => exact ⟨_, _, hc, hd, hz⟩
  | leftExtra _ _ he _ => rcases hu with h | h <;> rw [h] at he <;> cases he
  | rightExtra _ _ he _ => rcases hs with h | h <;> rw [h] at he <;> cases he

end Unrestricted

theorem ItemsJoined.clash (h : ItemsJoined L t s u none) :
    ∃ c d, s.childFor .items = some c ∧ u.childFor .items = some d ∧ ChildJoined L t c d none := by
  generalize hr : (none : Option (Option SchemaId)) = r at h
  cases h with
  | @both c d z hc hd hz =>
      cases z with
      | none => exact ⟨c, d, hc, hd, hz⟩
      | some z => cases hr
  | one _ => cases hr

end Arena

end ApiModel
