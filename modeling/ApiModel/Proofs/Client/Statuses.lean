/-
  ApiModel.Proofs.Client.Statuses

  The statuses that responses are declared for. A key names at most one status, but not every status
  has only one key: a code or a leading digit may be written with zeros and a sign in front of it,
  and the mark of a range in either case. An operation has one response for every key, with the
  status that the key names. So it has two responses with the same status where two of its keys name
  the same one, and never where the keys are spelled as statuses are written.
-/
import ApiModel.Proofs.Client.Construction.Traversal
import ApiModel.Proofs.Text.Natural
import Mathlib.Data.List.Nodup

namespace ApiModel.Client

namespace Status

/-! ## Keys -/

/-- The codes and the leading digits that there are keys for. -/
def Valid : Status → Prop
  | code n => 100 ≤ n ∧ n < 600
  | range lead => 1 ≤ lead ∧ lead ≤ 5
  | default => True

/-- The mark of a range, in either case. -/
def Mark (cs : List Char) : Prop := cs.map Char.toUpper = ['X', 'X']

/-- The keys for some statuses. -/
def Spells : Status → List Char → Prop
  | code n, key => Text.Writes n key
  | range lead, key => ∃ digits mark, key = digits ++ mark ∧ Text.Writes lead digits ∧ Mark mark
  | default, key => key = "default".toList

theorem code?_eq_some_iff {cs : List Char} {n : Nat} :
    code? cs = some n ↔ (code n).Valid ∧ Text.Writes n cs := by
  unfold code?
  simp only [Option.bind_eq_bind, Option.bind_eq_some_iff, Text.natural?_eq_some_iff, Valid]
  grind

theorem lead?_eq_some_iff {cs : List Char} {n : Nat} :
    lead? cs = some n ↔ (range n).Valid ∧ Text.Writes n cs := by
  unfold lead?
  simp only [Option.bind_eq_bind, Option.bind_eq_some_iff, Text.natural?_eq_some_iff, Valid]
  grind

/-- Capitals leave all but small letters alone, and these become letters. -/
theorem toUpper_cases (c : Char) : c.toUpper = c ∨ 97 ≤ c.toNat ∧ 65 ≤ c.toUpper.toNat := by
  unfold Char.toUpper
  split
  · next hsmall =>
      have hlow : 97 ≤ c.val.toNat := UInt32.le_iff_toNat_le.1 hsmall.1
      have hhigh : c.val.toNat ≤ 122 := UInt32.le_iff_toNat_le.1 hsmall.2
      -- what is added is the distance of the capitals, below zero
      have hshift : ('A'.val - 'a'.val).toNat = 2 ^ 32 - 32 := rfl
      refine .inr ⟨hlow, ?_⟩
      show 65 ≤ (c.val + ('A'.val - 'a'.val)).toNat
      rw [UInt32.toNat_add, hshift]
      omega
  · exact .inl rfl

/-- The characters that numbers are written with stay what they are, and no others become them. -/
theorem toUpper_eq {c : Char}
    (h : (c.isDigit ∨ c = '+') ∨ (c.toUpper.isDigit ∨ c.toUpper = '+')) : c.toUpper = c := by
  have hsmall : ∀ {d : Char}, d.isDigit ∨ d = '+' → d.toNat ≤ 57 := by
    rintro d (hd | rfl)
    · exact (Char.isDigit_iff_toNat.1 hd).2
    · decide
  rcases toUpper_cases c with hc | ⟨hlow, hupper⟩
  · exact hc
  · rcases h with h | h
    · have := hsmall h
      omega
    · have := hsmall h
      omega

theorem writes_map_toUpper {n : Nat} {cs : List Char} :
    Text.Writes n (cs.map Char.toUpper) ↔ Text.Writes n cs := by
  have hsame : (∀ c ∈ cs, c.toUpper = c) → cs.map Char.toUpper = cs := fun h =>
    (List.map_congr_left h).trans (List.map_id' cs)
  constructor
  · intro h
    exact hsame (fun c hc => toUpper_eq (.inr (h.isDigit (List.mem_map_of_mem hc)))) ▸ h
  · intro h
    exact (hsame fun c hc => toUpper_eq (.inl (h.isDigit hc))).symm ▸ h

/-- A key for a range, read from the end. -/
theorem spells_range_iff {n : Nat} {key : List Char} : (range n).Spells key ↔
    ∃ lead, (key.map Char.toUpper).reverse = 'X' :: 'X' :: lead ∧ Text.Writes n lead.reverse := by
  constructor
  · rintro ⟨digits, mark, rfl, hdigits, hmark⟩
    refine ⟨(digits.map Char.toUpper).reverse, ?_, ?_⟩
    · rw [List.map_append, hmark, List.reverse_append]
      rfl
    · rwa [List.reverse_reverse, writes_map_toUpper]
  · rintro ⟨lead, hkey, hlead⟩
    have hkey : key.map Char.toUpper = lead.reverse ++ ['X', 'X'] := by
      rw [← List.reverse_reverse (key.map Char.toUpper), hkey]
      simp
    obtain ⟨digits, mark, rfl, hdigits, hmark⟩ := List.map_eq_append_iff.1 hkey
    exact ⟨digits, mark, rfl, writes_map_toUpper.1 (hdigits ▸ hlead), hmark⟩

/-- A number does not end in the mark of a range. -/
theorem not_writes_of_marked {n : Nat} {key lead : List Char}
    (hkey : (key.map Char.toUpper).reverse = 'X' :: 'X' :: lead) : ¬ Text.Writes n key := by
  intro h
  have hmem : 'X' ∈ key.map Char.toUpper := by
    rw [← List.mem_reverse, hkey]
    exact List.mem_cons_self
  rcases (writes_map_toUpper.2 h).isDigit hmem with hdigit | hplus
  · cases hdigit
  · cases hplus

/-- A key names the statuses that it spells, if they are valid, and no others. -/
theorem ofName?_eq_some_iff {key : String} {st : Status} :
    ofName? key = some st ↔ st.Valid ∧ st.Spells key.toList := by
  by_cases hdefault : key = "default"
  · subst hdefault
    have hname : ofName? "default" = some default := rfl
    rw [hname]
    cases st with
    | code n =>
        refine ⟨nofun, fun h => ?_⟩
        rcases h.2.isDigit (c := 'd') (by decide) with hdigit | hplus
        · cases hdigit
        · cases hplus
    | range n =>
        refine ⟨nofun, fun h => ?_⟩
        obtain ⟨lead, hmark, -⟩ := spells_range_iff.1 h.2
        cases hmark
    | default => exact ⟨fun _ => ⟨trivial, rfl⟩, fun _ => rfl⟩
  · have hchars : key.toList ≠ "default".toList := fun h => hdefault (String.toList_inj.1 h)
    rw [ofName?, if_neg (by simpa using hdefault)]
    split
    · next lead hmark =>
        cases st with
        | code n => simpa [Spells] using fun _ => not_writes_of_marked hmark
        | range n =>
            rw [spells_range_iff, hmark]
            simpa using lead?_eq_some_iff
        | default => simpa [Valid, Spells] using hchars
    · next hmark =>
        cases st with
        | code n => simpa [Spells] using code?_eq_some_iff
        | range n =>
            refine ⟨by simp, fun h => ?_⟩
            obtain ⟨lead, hlead, -⟩ := spells_range_iff.1 h.2
            exact absurd hlead (hmark lead)
        | default => simpa [Valid, Spells] using hchars

/-- The key is spelled as the statuses that it names are written. -/
def Plain (key : String) : Prop := (ofName? key).map name = some key

theorem Plain.eq_of_ofName? {key key' : String} (h : Plain key) (h' : Plain key')
    (heq : ofName? key = ofName? key') : key = key' := by
  rw [Plain, heq] at h
  exact Option.some.inj (h.symm.trans h')

end Status

/-! ## Responses -/

/-- An operation has one response for each key that is declared for it, in the same order, with the
    status that the key names. -/
def Operation.Answers (x : Site) (o : Operation) : Prop :=
  x.operation.responses.keys.map Status.ofName? = (o.responses.map Response.status).map some

namespace Operation.Answers

variable {x : Site} {o : Operation}

/-- No status is repeated, unless two keys name the same one. -/
theorem nodup_iff (h : o.Answers x) : (o.responses.map Response.status).Nodup ↔
    (x.operation.responses.keys.map Status.ofName?).Nodup := by
  rw [Answers] at h
  rw [h, List.nodup_map_iff fun _ _ => Option.some.inj]

/-- Keys that are spelled as statuses are written name different ones. -/
theorem nodup_of_plain (h : o.Answers x) (hkeys : x.operation.responses.keys.Nodup)
    (hplain : ∀ key ∈ x.operation.responses.keys, Status.Plain key) :
    (o.responses.map Response.status).Nodup :=
  h.nodup_iff.2 (List.Nodup.map_on (fun key hkey key' hkey' heq =>
    (hplain key hkey).eq_of_ofName? (hplain key' hkey') heq) hkeys)

end Operation.Answers

namespace Construction

open Work

variable {b : Setting} {c : Construction} {place : Pointer}

theorem returns_response (key : String) (item : Document.OrRef Document.Response)
    (classBase : String) :
    Returns (response b key item place classBase) c fun r _ =>
      Status.ofName? key = some r.status := by
  unfold response
  split
  · next status hstatus =>
      -- the status is known before anything else is worked out
      exact .bind (.any _ _) fun _ _ _ => .bind (.any _ _) fun _ _ _ =>
        .bind (.any _ _) fun _ _ _ => .pure hstatus
  · exact trivial

theorem returns_responses (base : Pointer) (classBase : String)
    (items : List (String × Document.OrRef Document.Response)) :
    Returns (responses b base classBase items) c fun rs _ =>
      (items.map Prod.fst).map Status.ofName? = (rs.map Response.status).map some := by
  induction items generalizing c with
  | nil => exact .pure rfl
  | cons item rest ih =>
      obtain ⟨key, item⟩ := item
      unfold responses
      refine .bind (returns_response key item classBase) fun r d hr => ?_
      exact .bind ih fun rs e hrs => .pure (congrArg₂ List.cons hr hrs)

theorem returns_operation_answers (x : Site) (shared : List Parameter) :
    Returns (operation b x.path shared x.method x.operation) c fun o _ => o.Answers x := by
  unfold operation
  -- what comes before the responses has no say, and neither has what comes after them
  refine .bind (.any _ _) fun _ _ _ => .bind (.any _ _) fun _ _ _ => .bind (.any _ _) fun _ _ _ =>
    .bind (.any _ _) fun _ _ _ => ?_
  exact .bind (returns_responses _ _ _) fun rs _ hrs => .bind (.any _ _) fun _ _ _ => .pure hrs

theorem returns_model_answers (api : Document.Api) :
    Returns (model b api) c fun m _ =>
      List.Forall₂ (fun x o => o.Answers x) (sites api.paths.entries) m.operations := by
  refine returns_model_of (P := fun _ _ => True)
    (Q := fun _ os _ => List.Forall₂ (fun x o => o.Answers x) (sites api.paths.entries) os)
    (.any _ _) ?_ ?_ ?_
  · exact fun _ _ _ =>
      returns_operations_of (fun x shared _ => returns_operation_answers x shared) _
  · exact fun _ _ d _ hos => (Returns.any _ d).mono fun _ _ _ => hos
  · exact fun _ _ _ hos => hos

end Construction

/-- In every model, each operation has one response for every key that is declared for it, in order,
    with the status that the key names. -/
theorem statuses_of_buildWithin {calls : Nat} {document : Json} {config : Config} {naming : Naming}
    {m : Model} (h : buildWithin calls document config naming = .ok m) :
    ∃ api, readApi document = .ok api ∧
      List.Forall₂ (fun x o => o.Answers x) (sites api.paths.entries) m.operations := by
  obtain ⟨api, c, hapi, hrun⟩ := run_model_of_buildWithin h
  exact ⟨api, hapi, (Construction.returns_model_answers api).of_ok hrun⟩

/-- An operation of a model has different statuses exactly when no two of the keys that are declared
    for it name the same one, and so whenever these keys are spelled as statuses are written. -/
theorem nodup_statuses_of_buildWithin {calls : Nat} {document : Json} {config : Config}
    {naming : Naming} {m : Model} (h : buildWithin calls document config naming = .ok m) :
    ∃ api, readApi document = .ok api ∧ List.Forall₂ (fun x o =>
        ((o.responses.map Response.status).Nodup ↔
          (x.operation.responses.keys.map Status.ofName?).Nodup) ∧
        (x.operation.responses.keys.Nodup →
          (∀ key ∈ x.operation.responses.keys, Status.Plain key) →
            (o.responses.map Response.status).Nodup))
      (sites api.paths.entries) m.operations :=
  (statuses_of_buildWithin h).imp fun _ h => ⟨h.1, h.2.imp fun _ _ ho =>
    ⟨ho.nodup_iff, ho.nodup_of_plain⟩⟩

/-- A description with one operation that declares responses for some keys. -/
def answeringAt (keys : List String) : Json :=
  .obj [("openapi", .str "3.0.0"),
    ("info", .obj [("title", .str "Rates"), ("version", .str "1")]),
    ("paths", .obj [("/rates", .obj [("get", .obj [("operationId", .str "rates"),
      ("responses", .obj (keys.map fun key => (key, .obj [("description", .str key)])))])])])]

/-- Two keys for one code, and three for one range, give responses with the same status. -/
theorem statuses_repeated :
    ((buildWithin 8 (answeringAt ["200", "+200", "2XX", "2xx", "02XX"]) .standard
        .marked).toOption.map fun m => m.operations.map fun o => o.responses.map Response.status) =
      some [[.code 200, .code 200, .range 2, .range 2, .range 2]] := by
  decide +kernel

end ApiModel.Client
