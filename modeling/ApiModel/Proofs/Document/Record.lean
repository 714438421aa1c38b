/-
  ApiModel.Proofs.Document.Record

  What a typed record says about the value it was read from. A field of a record stands under its
  key in an object, or at its number in an array. A reader of fields that gives a result has met
  certain values at certain places; as readers are put together applicatively, so is what they say
  of these places, until `reads_record` says it of the whole value.
-/
import ApiModel.Document
import ApiModel.Proofs.Json
import Mathlib.Data.List.Forall2

namespace ApiModel.Document

variable {α β : Type}

/-- The value of a field of a record: under its key in an object, at its number in an array. -/
def member? (v : Json) (i : Nat) (name : String) : Option Json :=
  match v with
  | .obj fields => fields.lookup name
  | .arr items => items[i]?
  | _ => none

/-- The value of an optional field, which may be missing or null. -/
def given? (v : Json) (i : Nat) (name : String) : Option Json :=
  (member? v i name).filter fun w => !w.isNull

/-! ## Values of a shape -/

theorem forall₂_of_mapM {ε : Type} {f : α → Except ε β} {as : List α} {bs : List β}
    (h : as.mapM f = .ok bs) : List.Forall₂ (fun a b => f a = .ok b) as bs := by
  induction as generalizing bs with
  | nil =>
      cases h
      exact .nil
  | cons a as ih =>
      rw [List.mapM_cons] at h
      obtain ⟨b, hb, h⟩ := Json.ok_of_bind h
      obtain ⟨bs', hbs, h⟩ := Json.ok_of_bind h
      cases h
      exact .cons hb (ih hbs)

theorem map_eq_map_of_forall₂ {γ : Type} {f : α → γ} {g : β → γ} {as : List α} {bs : List β}
    (h : List.Forall₂ (fun a b => f a = g b) as bs) : as.map f = bs.map g := by
  rw [← List.forall₂_eq_eq_eq, List.forall₂_map_left_iff, List.forall₂_map_right_iff]
  exact h

theorem eq_map_of_forall₂ {f : β → α} {as : List α} {bs : List β}
    (h : List.Forall₂ (fun a b => a = f b) as bs) : as = bs.map f := by
  rw [← map_eq_map_of_forall₂ (f := id) h, List.map_id]

theorem eq_of_text {v : Json} {t : String} (h : Shape.text v = .ok t) : v = .str t := by
  cases v <;> cases h
  rfl

theorem eq_of_listOf {s : Shape α} {v : Json} {as : List α} (h : Shape.listOf s v = .ok as) :
    ∃ items, v = .arr items ∧ List.Forall₂ (fun w a => s w = .ok a) items as := by
  cases v with
  | arr items => exact ⟨items, rfl, forall₂_of_mapM h⟩
  | _ => cases h

theorem eq_of_dictOf {s : Shape α} {v : Json} {d : Dict String α} (h : Shape.dictOf s v = .ok d) :
    ∃ fields, v = .obj fields ∧
      List.Forall₂ (fun f e => f.1 = e.1 ∧ s f.2 = .ok e.2) fields d.entries := by
  cases v with
  | obj fields =>
      obtain ⟨entries, hentries, hd⟩ := Json.ok_of_bind h
      cases hd
      refine ⟨fields, rfl, (forall₂_of_mapM hentries).imp fun f e he => ?_⟩
      obtain ⟨a, ha, he⟩ := Json.ok_of_bind he
      cases he
      exact ⟨rfl, ha⟩
  | _ => cases h

/-! ## Fields -/

/-- What a field of a shape has been read from: a value of the shape, or nothing where there is a
    value to be taken instead. -/
def ReadFrom (s : Shape α) (missing : Option α) (v : Option Json) (a : α) : Prop :=
  match v with
  | some v => s v = .ok a
  | none => missing = some a

/-- The value of an optional field is that of a value given, and none otherwise. -/
theorem ReadFrom.given {s : Shape α} {v : Json} {i : Nat} {name : String} {r : Option α}
    (h : ReadFrom (.nullable s) (some none) (member? v i name) r) :
    match given? v i name with
    | none => r = none
    | some w => ∃ a, s w = .ok a ∧ r = some a := by
  unfold given?
  cases hw : member? v i name with
  | none =>
      rw [hw] at h
      cases h
      rfl
  | some w =>
      rw [hw] at h
      cases w with
      | null => cases h; rfl
      | _ =>
          obtain ⟨a, ha, hr⟩ := Json.ok_of_bind h
          cases hr
          exact ⟨a, ha, rfl⟩

namespace Fields

variable {x : Fields α} {P : (Nat → String → Option Json) → α → Prop}

/-- Whenever `x` gives a result, `P` holds of it and of the places of the fields, counted from the
    first that `x` reads; and of an array `x` takes as many items as it has fields. -/
structure Reads (x : Fields α) (P : (Nat → String → Option Json) → α → Prop) : Prop where
  object : ∀ es a, x.ofObject es = .ok a → P (fun _ name => es.lookup name) a
  items : ∀ items a rest, x.ofItems items = .ok (a, rest) →
    P (fun i _ => items[i]?) a ∧ rest = items.drop x.count

theorem snd_find (name : String) (i : Nat) (es : List (String × Json)) :
    (find name i es).map Prod.snd = es.lookup name := by
  induction es generalizing i with
  | nil => rfl
  | cons e es ih =>
      obtain ⟨k, v⟩ := e
      rw [find, List.lookup_cons]
      by_cases hk : k = name
      · rw [hk, if_pos (beq_self_eq_true name), beq_self_eq_true]
        rfl
      · rw [if_neg (by simpa using hk), beq_false_of_ne (Ne.symm hk)]
        exact ih (i + 1)

theorem mapError_eq_ok {ε ε' : Type} {r : Except ε α} {f : ε → ε'} {a : α} :
    r.mapError f = .ok a ↔ r = .ok a := by
  cases r with
  | error e => exact ⟨(nomatch ·), (nomatch ·)⟩
  | ok b => exact ⟨fun h => congrArg _ (Except.ok.inj h), fun h => congrArg _ (Except.ok.inj h)⟩

theorem reads_field (name : String) (s : Shape α) (missing : Option α) :
    Reads (field name s missing) fun place a => ReadFrom s missing (place 0 name) a where
  object es a h := by
    show ReadFrom s missing (es.lookup name) a
    rw [← snd_find name 0 es]
    unfold field at h
    dsimp only at h
    cases hfind : find name 0 es with
    | none =>
        rw [hfind] at h
        cases missing with
        | none => cases h
        | some b => cases h; rfl
    | some e =>
        rw [hfind] at h
        exact mapError_eq_ok.1 h
  items items a rest h := by
    unfold field at h
    dsimp only at h
    cases items with
    | nil =>
        cases missing with
        | none => cases h
        | some b => cases h; exact ⟨rfl, rfl⟩
    | cons v vs =>
        obtain ⟨b, hb, h⟩ := Json.ok_of_bind h
        cases h
        exact ⟨mapError_eq_ok.1 hb, rfl⟩

theorem reads_none (a : α) : Reads (none a) fun _ b => b = a where
  object _ _ h := by cases h; rfl
  items _ _ _ h := by cases h; exact ⟨rfl, rfl⟩

theorem ofObject_both {γ : Type} {y : Fields β} {f : α → β → γ} {es : List (String × Json)}
    {c : γ} : (both f x y).ofObject es = .ok c ↔
      ∃ a b, x.ofObject es = .ok a ∧ y.ofObject es = .ok b ∧ c = f a b := by
  unfold both
  dsimp only
  constructor
  · intro h
    cases ha : x.ofObject es with
    | error e => rw [ha] at h; cases hb : y.ofObject es <;> rw [hb] at h <;> cases h
    | ok a =>
        cases hb : y.ofObject es with
        | error e => rw [ha, hb] at h; cases h
        | ok b =>
            rw [ha, hb] at h
            cases h
            exact ⟨a, b, rfl, rfl, rfl⟩
  · rintro ⟨a, b, ha, hb, rfl⟩
    rw [ha, hb]

/-- Two readers one after the other: the fields of the second come after those of the first. -/
theorem Reads.both {γ : Type} {y : Fields β} {Q : (Nat → String → Option Json) → β → Prop}
    {f : α → β → γ} (hx : Reads x P) (hy : Reads y Q) :
    Reads (both f x y) fun place c =>
      ∃ a b, P place a ∧ Q (fun i => place (x.count + i)) b ∧ c = f a b where
  object es c h := by
    obtain ⟨a, b, ha, hb, rfl⟩ := ofObject_both.1 h
    exact ⟨a, b, hx.object es a ha, hy.object es b hb, rfl⟩
  items items c rest h := by
    obtain ⟨⟨a, items'⟩, ha, h⟩ := Json.ok_of_bind h
    obtain ⟨⟨b, rest'⟩, hb, h⟩ := Json.ok_of_bind h
    cases h
    obtain ⟨hP, rfl⟩ := hx.items items a items' ha
    obtain ⟨hQ, rfl⟩ := hy.items _ b rest hb
    simp only [List.getElem?_drop] at hQ
    exact ⟨⟨a, b, hP, hQ, rfl⟩, List.drop_drop⟩

theorem Reads.map {f : α → β} (hx : Reads x P) :
    Reads (f <$> x) fun place c => ∃ a, P place a ∧ c = f a where
  object es c h := by
    obtain ⟨a, _, ha, -, hc⟩ := (hx.both (reads_none ())).object es c h
    exact ⟨a, ha, hc⟩
  items items c rest h := by
    obtain ⟨⟨a, _, ha, -, hc⟩, hrest⟩ := (hx.both (reads_none ())).items items c rest h
    exact ⟨⟨a, ha, hc⟩, hrest⟩

theorem Reads.seq {f : Fields (α → β)} {P : (Nat → String → Option Json) → (α → β) → Prop}
    {Q : (Nat → String → Option Json) → α → Prop} (hf : Reads f P) (hx : Reads x Q) :
    Reads (f <*> x) fun place c =>
      ∃ g a, P place g ∧ Q (fun i => place (f.count + i)) a ∧ c = g a :=
  hf.both hx

/-- What the fields of a record say of the value it was read from. -/
theorem reads_record (hx : Reads x P) {name : String} {v : Json} {a : α}
    (h : record name x v = .ok a) : P (member? v) a := by
  cases v with
  | obj es => exact hx.object es a (mapError_eq_ok.1 h)
  | arr items =>
      unfold record at h
      dsimp only at h
      split at h
      · next _ hb =>
          cases h
          exact (hx.items items a [] hb).1
      all_goals cases h
  | _ => cases h

/-! ## Objects -/

variable {es : List (String × Json)} {a : α}

theorem ofObject_field {name : String} {s : Shape α} {missing : Option α} :
    (field name s missing).ofObject es = .ok a ↔ ReadFrom s missing (es.lookup name) a := by
  refine ⟨(reads_field name s missing).object es a, fun h => ?_⟩
  rw [← snd_find name 0 es] at h
  unfold field
  dsimp only
  cases hfind : find name 0 es with
  | none =>
      rw [hfind] at h
      cases h
      rfl
  | some e =>
      rw [hfind] at h
      exact mapError_eq_ok.2 h

theorem ofObject_map {f : α → β} {b : β} :
    (f <$> x).ofObject es = .ok b ↔ ∃ a, x.ofObject es = .ok a ∧ b = f a := by
  refine ofObject_both.trans ⟨?_, ?_⟩
  · rintro ⟨a, _, ha, -, hb⟩
    exact ⟨a, ha, hb⟩
  · rintro ⟨a, ha, hb⟩
    exact ⟨a, (), ha, rfl, hb⟩

theorem ofObject_seq {f : Fields (α → β)} {b : β} : (f <*> x).ofObject es = .ok b ↔
    ∃ g a, f.ofObject es = .ok g ∧ x.ofObject es = .ok a ∧ b = g a := ofObject_both

theorem record_obj {name : String} :
    record name x (.obj es) = .ok a ↔ x.ofObject es = .ok a := mapError_eq_ok

end Fields

end ApiModel.Document
