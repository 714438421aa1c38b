/-
  ApiModel.Document.Reference

  Places and references. A pointer is followed through object keys and array indices; where the
  value there is a reference object, the pointer it writes is followed next, until a value is
  reached that is none. The chain cannot go on for ever: every pointer on it after the first is
  written somewhere in the document, and none is met twice, since the second meeting is reported as
  a cycle. That is what the number of references still unmet decreases for.
-/
import ApiModel.Document

namespace ApiModel.Document

/-- The largest array index and above: no index reaches it. -/
def indexBound : Nat := Nat.pow 2 64

/-- The value one segment further: under a key, or at a decimal index. -/
def step? (v : Json) (segment : String) : Option Json :=
  match v with
  | .obj fields => fields.lookup segment
  | .arr items => do items[← Text.natural? indexBound segment.toList]?
  | _ => none

/-- The value at the end of a way of segments. -/
def walk? : Json → List String → Option Json
  | v, [] => some v
  | v, s :: ss => do walk? (← step? v s) ss

/-- The value at a pointer; references on the way are not followed. -/
def node (document : Json) (p : Pointer) : Except Fault Json :=
  match walk? document p.segments with
  | some v => .ok v
  | none => .error (.unresolved p.render)

/-- The text of a reference object. -/
def reference? (v : Json) : Option String := do (← v.get? "$ref").text?

/-! ## The references of a document -/

mutual

/-- The texts of all reference objects inside a value. -/
def references : Json → List String
  | .obj fields => (reference? (.obj fields)).toList ++ referencesOfFields fields
  | .arr items => referencesOfItems items
  | _ => []

/-- The texts of all reference objects inside the items. -/
def referencesOfItems : List Json → List String
  | [] => []
  | v :: vs => references v ++ referencesOfItems vs

/-- The texts of all reference objects inside the fields. -/
def referencesOfFields : List (String × Json) → List String
  | [] => []
  | (_, v) :: fs => references v ++ referencesOfFields fs

end

/-- The local pointers that the references of a document write. -/
def targets (document : Json) : List Pointer := (references document).filterMap Pointer.parse?

theorem mem_references_of_reference? {v : Json} {t : String} (h : reference? v = some t) :
    t ∈ references v := by
  cases v with
  | obj fields => simp [references, h]
  | _ => simp [reference?, Json.get?, Json.fields?] at h

theorem references_subset_of_item {v : Json} {items : List Json} (h : v ∈ items) {t : String}
    (ht : t ∈ references v) : t ∈ referencesOfItems items := by
  induction items with
  | nil => simp at h
  | cons w ws ih =>
    simp only [referencesOfItems, List.mem_append]
    rcases List.mem_cons.1 h with rfl | h
    · exact .inl ht
    · exact .inr (ih h)

theorem references_subset_of_lookup {fields : List (String × Json)} {s : String} {v : Json}
    (h : fields.lookup s = some v) {t : String} (ht : t ∈ references v) :
    t ∈ referencesOfFields fields := by
  induction fields with
  | nil => simp at h
  | cons f fs ih =>
    obtain ⟨k, w⟩ := f
    simp only [referencesOfFields, List.mem_append]
    simp only [List.lookup_cons] at h
    split at h
    · exact .inl (Option.some.inj h ▸ ht)
    · exact .inr (ih h)

theorem references_subset_of_step? {v w : Json} {s : String} (h : step? v s = some w) {t : String}
    (ht : t ∈ references w) : t ∈ references v := by
  cases v with
  | obj fields =>
    simp only [references, List.mem_append]
    exact .inr (references_subset_of_lookup h ht)
  | arr items =>
    simp only [step?, Option.bind_eq_bind, Option.bind_eq_some_iff] at h
    obtain ⟨i, _, hi⟩ := h
    exact references_subset_of_item (List.mem_of_getElem? hi) ht
  | _ => simp [step?] at h

theorem references_subset_of_walk? {ss : List String} {v w : Json} (h : walk? v ss = some w)
    {t : String} (ht : t ∈ references w) : t ∈ references v := by
  induction ss generalizing v with
  | nil =>
    simp only [walk?, Option.some.injEq] at h
    exact h ▸ ht
  | cons s ss ih =>
    simp only [walk?, Option.bind_eq_bind, Option.bind_eq_some_iff] at h
    obtain ⟨u, hu, hw⟩ := h
    exact references_subset_of_step? hu (ih hw)

/-- A pointer written by a reference object that some pointer leads to is among the targets. -/
theorem mem_targets {document v : Json} {p q : Pointer} {t : String}
    (hv : node document p = .ok v) (ht : reference? v = some t) (hq : Pointer.parse? t = some q) :
    q ∈ targets document := by
  simp only [node] at hv
  split at hv
  · next w hw =>
    obtain rfl : w = v := by simpa using hv
    exact List.mem_filterMap.2
      ⟨t, references_subset_of_walk? hw (mem_references_of_reference? ht), hq⟩
  · simp at hv

/-- One more pointer on the trail leaves fewer of a list unmet, when it is of the list and was not
    on the trail. -/
theorem unmet_lt {ps trail : List Pointer} {q : Pointer} (hq : q ∈ ps) (hn : q ∉ trail) :
    (ps.filter (· ∉ trail ++ [q])).length < (ps.filter (· ∉ trail)).length := by
  have hsplit : ps.filter (· ∉ trail ++ [q]) = (ps.filter (· ∉ trail)).filter (· ≠ q) := by
    rw [List.filter_filter]
    congr 1
    funext x
    simp [not_or, Bool.and_comm]
  rw [hsplit]
  refine List.length_filter_lt_length_iff_exists.2 ⟨q, ?_, by simp⟩
  simp [List.mem_filter, hq, hn]

/-! ## Following references -/

/-- Follow references from `current`; `trail` holds the pointers met so far, `current` the last of
    them. -/
def resolveFrom (document : Json) (trail : List Pointer) (current : Pointer) :
    Except Fault (Pointer × Json) :=
  match _hv : node document current with
  | .error e => .error e
  | .ok v =>
    match _ht : reference? v with
    | none => .ok (current, v)
    | some text =>
      match _hq : Pointer.parse? text with
      -- a reference that is no local pointer is reported as it is written
      | none => .error (.unresolved text)
      | some next =>
        if _hn : next ∈ trail then .error (.referenceCycle (trail ++ [next]))
        else resolveFrom document (trail ++ [next]) next
termination_by ((targets document).filter (· ∉ trail)).length
decreasing_by exact unmet_lt (mem_targets _hv _ht _hq) _hn

/-- The place that a pointer ends at when references are followed, and the value there. -/
def resolve (document : Json) (p : Pointer) : Except Fault (Pointer × Json) :=
  resolveFrom document [p] p

/-- The typed object that a pointer ends at, and its place. -/
def resolveAs {α : Type} (document : Json) (s : Shape α) (p : Pointer) :
    Except Fault (Pointer × α) := do
  let (target, v) ← resolve document p
  return (target, ← readAt s target v)

/-- An object written in place stands where it is; a reference is followed and read. -/
def resolveItem {α : Type} (document : Json) (s : Shape α) (item : OrRef α) (place : Pointer) :
    Except Fault (Pointer × α) :=
  match item with
  | .item a => .ok (place, a)
  | .ref text =>
    match Pointer.parse? text with
    | some p => resolveAs document s p
    | none => .error (.unresolved text)

end ApiModel.Document
