/-
  ApiModel.Proofs.Document.Insertion

  A description with one more entry in one of its objects. A place that is neither on the way to the
  new entry nor below it holds what it held before, and the references that were written are still
  there, so there is no less to load.
-/
import ApiModel.Proofs.Document.View
import Mathlib.Data.List.Infix

namespace ApiModel

/-- Neither of two places is on the way to the other. -/
def Pointer.Apart (p q : Pointer) : Prop :=
  ¬p.segments <+: q.segments ∧ ¬q.segments <+: p.segments

instance (p q : Pointer) : Decidable (p.Apart q) := inferInstanceAs (Decidable (_ ∧ _))

/-- What is below a place that is apart from another is so, too. -/
theorem Pointer.Apart.push {p q : Pointer} (h : p.Apart q) (s : String) : (p.push s).Apart q := by
  refine ⟨fun hprefix => h.1 (List.IsPrefix.trans (List.prefix_append _ _) hprefix), fun hprefix => ?_⟩
  rcases List.prefix_concat_iff.1 hprefix with heq | hle
  · exact h.1 (heq ▸ List.prefix_append _ _)
  · exact h.2 hle

namespace Document

/-- `w` is `v` with one more entry in the object at the end of `path`, somewhere among the others. -/
inductive Inserts (name : String) (value : Json) : List String → Json → Json → Prop
  | here (before after : List (String × Json))
      (hnew : name ∉ (before ++ after).map Prod.fst) :
      Inserts name value [] (.obj (before ++ after)) (.obj (before ++ (name, value) :: after))
  | inside (before after : List (String × Json)) {key : String} {v w : Json} {path : List String}
      (hfirst : key ∉ before.map Prod.fst) (h : Inserts name value path v w) :
      Inserts name value (key :: path) (.obj (before ++ (key, v) :: after))
        (.obj (before ++ (key, w) :: after))

section Lookup

variable {before after : List (String × Json)} {key key' : String} {v w : Json}

theorem lookup_insert_of_ne (hne : key' ≠ key) :
    (before ++ (key, v) :: after).lookup key' = (before ++ after).lookup key' := by
  rw [List.lookup_append, List.lookup_append, List.lookup_cons, beq_false_of_ne hne]

/-- Under other keys there is the same, whatever the value. -/
theorem lookup_insert_congr (hne : key' ≠ key) :
    (before ++ (key, w) :: after).lookup key' = (before ++ (key, v) :: after).lookup key' := by
  rw [lookup_insert_of_ne hne, lookup_insert_of_ne hne]

theorem lookup_eq_none {fields : List (String × Json)} (h : key ∉ fields.map Prod.fst) :
    fields.lookup key = none := by
  refine List.lookup_eq_none_iff.2 fun e he => bne_iff_ne.2 ?_
  rintro rfl
  exact h (List.mem_map_of_mem he)

theorem lookup_insert_self (hfirst : key ∉ before.map Prod.fst) :
    (before ++ (key, v) :: after).lookup key = some v := by
  rw [List.lookup_append, lookup_eq_none hfirst, List.lookup_cons, beq_self_eq_true]
  rfl

end Lookup

variable {name : String} {value v w : Json} {path : List String}

/-- Only objects get new entries. -/
theorem Inserts.objects (h : Inserts name value path v w) :
    ∃ fields fields', v = .obj fields ∧ w = .obj fields' := by
  cases h with
  | here => exact ⟨_, _, rfl, rfl⟩
  | inside => exact ⟨_, _, rfl, rfl⟩

/-- Places apart from the new entry hold what they held. -/
theorem Inserts.walk?_eq (h : Inserts name value path v w) {ss : List String}
    (hon : ¬ss <+: path ++ [name]) (hbelow : ¬path ++ [name] <+: ss) : walk? w ss = walk? v ss := by
  induction h generalizing ss with
  | here before after hnew =>
      cases ss with
      | nil => exact absurd (List.nil_prefix) hon
      | cons s ss =>
          have hne : s ≠ name := by
            rintro rfl
            exact hbelow ⟨ss, rfl⟩
          simp only [walk?, step?, lookup_insert_of_ne hne]
  | @inside before after key v w path hfirst h ih =>
      cases ss with
      | nil => exact absurd (List.nil_prefix) hon
      | cons s ss =>
          simp only [walk?, step?]
          by_cases hs : s = key
          · subst hs
            rw [lookup_insert_self hfirst, lookup_insert_self hfirst]
            refine ih (fun hp => hon ?_) (fun hp => hbelow ?_)
            · exact List.cons_prefix_cons.2 ⟨rfl, hp⟩
            · exact List.cons_prefix_cons.2 ⟨rfl, hp⟩
          · rw [lookup_insert_congr hs]

/-- Where no reference of the description leads to the new entry, to something below it or to
    something that it is part of, both are alike at all places apart from it. -/
theorem Inserts.alike {document document' : Json} (h : Inserts name value path document document')
    (hreferences : ∀ text ∈ references document, ∀ q, Pointer.parse? text = some q →
      q.Apart ⟨path ++ [name]⟩) :
    Alike (Pointer.Apart · ⟨path ++ [name]⟩) document document' where
  push _ s hp := hp.push s
  node p v hp hv := by
    rw [node_eq_ok] at hv ⊢
    rw [h.walk?_eq hp.1 hp.2, hv]
  target p v text q _ hv htext hq := by
    refine hreferences text ?_ q hq
    exact references_subset_of_walk? (node_eq_ok.1 hv) (mem_references_of_reference? htext)

/-! ## What there is to load -/

theorem referencesOfFields_append (fs gs : List (String × Json)) :
    referencesOfFields (fs ++ gs) = referencesOfFields fs ++ referencesOfFields gs := by
  induction fs with
  | nil => rfl
  | cons f fs ih =>
      rw [List.cons_append, referencesOfFields, referencesOfFields, ih, List.append_assoc]

theorem valueCountFields_append (fs gs : List (String × Json)) :
    Session.valueCountFields (fs ++ gs) =
      Session.valueCountFields fs + Session.valueCountFields gs := by
  induction fs with
  | nil => exact (Nat.zero_add _).symm
  | cons f fs ih =>
      rw [List.cons_append, Session.valueCountFields, Session.valueCountFields, ih, Nat.add_assoc]

/-- A new entry makes a value a reference, or leaves it what it was. -/
theorem Inserts.reference?_sublist (h : Inserts name value path v w) :
    (reference? v).toList.Sublist (reference? w).toList := by
  cases h with
  | here before after hnew =>
      by_cases hname : "$ref" = name
      · subst hname
        have hnone : reference? (.obj (before ++ after)) = none := by
          have hlookup := lookup_eq_none hnew
          simp [reference?, Json.get?, Json.fields?, hlookup]
        rw [hnone]
        exact List.nil_sublist _
      · simp only [reference?, Json.get?, Json.fields?, Option.bind_eq_bind, Option.bind_some,
          lookup_insert_of_ne hname]
        exact .refl _
  | @inside before after key v w path hfirst h =>
      by_cases hkey : "$ref" = key
      -- an object is no text, so it makes no reference
      · subst hkey
        have hnone : ∀ u : Json, u.text? = none →
            reference? (.obj (before ++ ("$ref", u) :: after)) = none := by
          intro u hu
          simp [reference?, Json.get?, Json.fields?, lookup_insert_self hfirst, hu]
        obtain ⟨fields, fields', rfl, rfl⟩ := h.objects
        rw [hnone _ rfl]
        exact List.nil_sublist _
      · simp only [reference?, Json.get?, Json.fields?, Option.bind_eq_bind, Option.bind_some,
          lookup_insert_of_ne hkey]
        exact .refl _

/-- The references that were written are still there. -/
theorem Inserts.references_sublist (h : Inserts name value path v w) :
    (references v).Sublist (references w) := by
  have hself := h.reference?_sublist
  induction h with
  | here before after hnew =>
      simp only [references, referencesOfFields_append, referencesOfFields]
      refine hself.append ((List.Sublist.refl _).append ?_)
      exact List.sublist_append_right _ _
  | @inside before after key v w path hfirst h ih =>
      simp only [references, referencesOfFields_append, referencesOfFields]
      exact hself.append ((List.Sublist.refl _).append ((ih h.reference?_sublist).append (.refl _)))

theorem Inserts.valueCount_le (h : Inserts name value path v w) :
    Session.valueCount v ≤ Session.valueCount w := by
  induction h with
  | here =>
      simp only [Session.valueCount, valueCountFields_append, Session.valueCountFields]
      omega
  | inside _ _ ih =>
      simp only [Session.valueCount, valueCountFields_append, Session.valueCountFields]
      omega

/-- With one more entry loads may nest as deeply as before. -/
theorem Inserts.loadBound_le (h : Inserts name value path v w) :
    Session.loadBound v ≤ Session.loadBound w := by
  have hreferences := h.references_sublist.length_le
  have hvalues := h.valueCount_le
  unfold Session.loadBound
  exact Nat.add_le_add_right (Nat.mul_le_mul (Nat.succ_le_succ hreferences) hvalues) 2

end Document

end ApiModel
