/-
  ApiModel.Proofs.Client.Construction.Requirements

  What operations leave behind: the ids they claim and the security schemes they use. `Advances`
  keeps account of both. Schemes are read lazily and once, whoever names them first; so after any
  run exactly the schemes are there that were there before or have been named by a requirement on
  the way, each under its own name.
-/
import ApiModel.Proofs.Client.Construction.Steady

namespace ApiModel.Client.Construction

open Work

variable {b : Setting} {c d e : Construction} {place : Pointer}
  {ids ids' names names' : List String}

/-- Every security scheme is kept under its own name, and once. -/
structure Indexed (c : Construction) : Prop where
  keys : c.schemes.keys.Nodup
  named : ∀ s ∈ c.schemes.entries, s.2.name = s.1

theorem indexed_empty : empty.Indexed := ⟨List.nodup_nil, fun s hs => by cases hs⟩

/-- The names of the security schemes of a model are the keys that they are kept under. -/
theorem Indexed.map_name (h : c.Indexed) :
    c.schemes.values.map SecurityScheme.name = c.schemes.keys := by
  unfold Dict.values Dict.keys
  rw [List.map_map]
  exact List.map_congr_left h.named

/-- Between `c` and `d`, operations with these ids have been added, and schemes with these names
    have been used. -/
structure Advances (ids names : List String) (c d : Construction) : Prop where
  operationIds : d.operationIds = c.operationIds ++ ids
  distinct : c.operationIds.Nodup → d.operationIds.Nodup
  scheme : ∀ n, n ∈ d.schemes.keys ↔ n ∈ c.schemes.keys ∨ n ∈ names
  indexed : c.Indexed → d.Indexed
  defaultSecurity : d.defaultSecurity = c.defaultSecurity
  tidies : c.session.Tidies d.session
  secures : c.session.Secures d.session

theorem Steady.advances (h : Steady c d) : Advances [] [] c d where
  operationIds := by rw [h.operationIds, List.append_nil]
  distinct hc := h.operationIds ▸ hc
  scheme n := by rw [h.schemes, List.mem_nil_iff, or_false]
  indexed hc := ⟨h.schemes ▸ hc.keys, h.schemes ▸ hc.named⟩
  defaultSecurity := h.defaultSecurity
  tidies := h.tidies
  secures := h.secures

theorem advances_refl (c : Construction) : Advances [] [] c c := (refl_of Steady c).advances

theorem Advances.trans (h : Advances ids names c d) (h' : Advances ids' names' d e) :
    Advances (ids ++ ids') (names ++ names') c e where
  operationIds := by rw [h'.operationIds, h.operationIds, List.append_assoc]
  distinct hc := h'.distinct (h.distinct hc)
  scheme n := by rw [h'.scheme, h.scheme, List.mem_append, or_assoc]
  indexed hc := h'.indexed (h.indexed hc)
  defaultSecurity := h'.defaultSecurity.trans h.defaultSecurity
  tidies := trans_of Session.Tidies h.tidies h'.tidies
  secures := trans_of Session.Secures h.secures h'.secures

/-- A step that only works out a part, after others. -/
theorem Advances.steady (h : Advances ids names c d) (h' : Steady d e) :
    Advances ids names c e := by
  have htrans := h.trans h'.advances
  rwa [List.append_nil, List.append_nil] at htrans

/-! ## Security schemes -/

theorem steady_schemeKind (s : Document.SecurityScheme) :
    Obeys Steady (schemeKind place s) := by
  have hpart : ∀ {α : Type} type field (part : Option α),
      Obeys Steady (schemePart place type field part) := by
    intro α type field part
    unfold schemePart
    split
    · exact .pure _
    · exact .fault _
  unfold schemeKind
  split
  · exact .bind (hpart _ _ _) fun _ => .bind (hpart _ _ _) fun _ => .pure _
  · exact .bind (hpart _ _ _) fun _ => .pure _
  · exact .pure _
  · exact .bind (hpart _ _ _) fun _ => .pure _
  · exact .fault _

/-- A scheme that has not been there is kept under its name. -/
theorem advances_insert (s : SecurityScheme) :
    Advances [] [s.name] c { c with schemes := c.schemes.insert s.name s } where
  operationIds := (List.append_nil _).symm
  distinct hc := hc
  scheme n := by
    rw [Dict.keys_insert, List.mem_singleton]
    split
    · next hmem => exact ⟨.inl, fun h => h.elim id fun heq => heq ▸ hmem⟩
    · rw [List.mem_append, List.mem_singleton]
  indexed hc := by
    refine ⟨Dict.nodup_keys_insert hc.keys _ _, fun x hx => ?_⟩
    rcases Dict.mem_put hx with rfl | hx
    · rfl
    · exact hc.named x hx
  defaultSecurity := rfl
  tidies hs := hs
  secures := refl_of Session.Secures c.session

theorem returns_useScheme (name : String) :
    Returns (useScheme b name) c fun _ d => Advances [] [name] c d := by
  unfold useScheme
  refine .view_bind ?_
  split
  · next hknown =>
      have hmem : name ∈ c.schemes.keys := Dict.contains_iff.1 hknown
      refine .pure { advances_refl c with scheme := fun n => ?_ }
      rw [List.mem_singleton]
      exact ⟨.inl, fun h => h.elim id fun heq => heq ▸ hmem⟩
  · refine .ofExcept_bind fun r _ => ?_
    refine .bind (.of_obeys (steady_schemeKind _) c) fun kind d hcd => ?_
    exact hcd.advances.trans (advances_insert ⟨name, r.2.description, kind⟩)

theorem returns_useSchemes (names : List String) :
    Returns (useSchemes b names) c fun _ d => Advances [] names c d := by
  induction names generalizing c with
  | nil => exact advances_refl c
  | cons name rest ih =>
      exact .bind (returns_useScheme name) fun _ d hcd => .mono ih fun _ e hde => hcd.trans hde

/-! ## Requirements -/

/-- The requirement with these alternatives; what has none of its own has the given one. -/
def demand (common : Option Requirement) :
    Option (List Document.Requirement) → Option Requirement
  | some declared => some ⟨declared.map Dict.sortByKey⟩
  | none => common

/-- The names of the schemes in the alternatives that are declared. -/
def demandedNames (own : Option (List Document.Requirement)) : List String :=
  (own.getD []).flatMap Dict.keys

/-- The requirement is the one declared, its schemes read, or else the one that `x` gives. -/
theorem returns_demand {common : Option Requirement} {x : BuildWork (Option Requirement)}
    (hx : Returns x c fun r d => r = common ∧ Advances [] [] c d)
    (own : Option (List Document.Requirement)) :
    Returns (match own with
      | some declared => some <$> requirement b declared
      | none => x) c fun r d =>
        r = demand common own ∧ Advances [] (demandedNames own) c d := by
  cases own with
  | none => exact hx
  | some declared =>
      have hread : Returns (requirement b declared) c fun r d =>
          r = ⟨declared.map Dict.sortByKey⟩ ∧ Advances [] (declared.flatMap Dict.keys) c d :=
        .bind (returns_useSchemes _) fun _ d hcd => .pure ⟨rfl, hcd⟩
      refine .bind hread ?_
      rintro r d ⟨hr, hcd⟩
      exact .pure ⟨congrArg some hr, hcd⟩

/-- Sorting the entries of the alternatives renames no scheme. -/
theorem mem_schemeNames {declared : List Document.Requirement} {n : String} :
    n ∈ Requirement.schemeNames ⟨declared.map Dict.sortByKey⟩ ↔
      n ∈ declared.flatMap Dict.keys := by
  unfold Requirement.schemeNames
  rw [List.flatMap_map, List.mem_flatMap, List.mem_flatMap]
  refine exists_congr fun a => and_congr_right fun _ => ?_
  exact ((Dict.perm_sortByKey a).map Prod.fst).mem_iff

end ApiModel.Client.Construction
