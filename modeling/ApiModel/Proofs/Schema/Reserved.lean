/-
  ApiModel.Proofs.Schema.Reserved

  Class names are given out once. What is registered goes under a name that has been given out, to a
  schema or to the values of an operation, and no name is given out again. So a class that has been
  registered is there for good, whatever is asked afterwards, and whether that fails or not.
-/
import ApiModel.Proofs.Dict
import ApiModel.Proofs.Fresh
import ApiModel.Proofs.Schema.Effect

namespace ApiModel.Session

open Work

variable {s t : Session} {naming : Naming} {calls : Nat} {id : SchemaId} {n : TypeName}

/-- The names of schemas and of registered classes have been given out. -/
structure Reserved (s : Session) : Prop where
  schemas : ∀ id n, s.classNames.get? id = some n → n ∈ s.takenNames
  classes : ∀ n, s.classes.contains n = true → n ∈ s.takenNames

/-- The names of schemas stay, and where names are reserved they stay so, and no class that has been
    registered is given up. -/
structure Secures (s t : Session) : Prop where
  named : ∀ id n, s.classNames.get? id = some n → t.classNames.get? id = some n
  reserved : s.Reserved → t.Reserved
  classes : s.Reserved → ∀ n c, s.classes.get? n = some c → t.classes.get? n = some c

instance : IsPreorder Session Secures where
  refl _ := ⟨fun _ _ h => h, fun h => h, fun _ _ _ h => h⟩
  trans _ _ _ h h' :=
    { named := fun id n hn => h'.named id n (h.named id n hn)
      reserved := fun hs => h'.reserved (h.reserved hs)
      classes := fun hs n c hc => h'.classes (h.reserved hs) n c (h.classes hs n c hc) }

theorem reserved_empty : empty.Reserved := ⟨nofun, nofun⟩

/-- What leaves names and classes alone. -/
theorem secures_of_eq (htaken : t.takenNames = s.takenNames) (hnames : t.classNames = s.classNames)
    (hclasses : t.classes = s.classes) : Secures s t where
  named _ _ hn := hnames ▸ hn
  reserved hs := ⟨htaken ▸ hnames ▸ hs.schemas, htaken ▸ hclasses ▸ hs.classes⟩
  classes _ _ _ hc := hclasses ▸ hc

theorem allowsWork_secures : AllowsWork Secures where
  arena _ _ _ := secures_of_eq rfl rfl rfl
  marked _ _ := secures_of_eq rfl rfl rfl
  warned _ _ := secures_of_eq rfl rfl rfl

/-! ## Names of schemas -/

theorem secures_className (id : SchemaId) : Obeys Secures (className naming id) := by
  intro s
  cases hknown : s.classNames.get? id with
  | some n =>
      rw [run_className_of_known naming hknown]
      exact refl_of Secures s
  | none =>
      obtain ⟨n, hrun⟩ := run_className_of_new naming hknown
      rw [hrun]
      refine ⟨fun i m hm => ?_, fun hs => ⟨fun i m hm => ?_, fun m hm => ?_⟩, fun _ _ _ hc => hc⟩
      · have hne : i ≠ id := by
          rintro rfl
          rw [hknown] at hm
          cases hm
        exact (Dict.get?_insert_of_ne _ hne n).trans hm
      · rw [Dict.get?_insert] at hm
        split at hm
        · cases hm
          exact List.mem_append_right _ (List.mem_singleton_self n)
        · exact List.mem_append_left _ (hs.schemas i m hm)
      · exact List.mem_append_left _ (hs.classes m hm)

theorem returns_className (id : SchemaId) (s : Session) :
    Returns (className naming id) s fun n t => t.classNames.get? id = some n := by
  unfold Returns Ends
  cases hknown : s.classNames.get? id with
  | some n =>
      rw [run_className_of_known naming hknown]
      exact hknown
  | none =>
      obtain ⟨n, hrun⟩ := run_className_of_new naming hknown
      rw [hrun]
      exact Dict.get?_insert_self _ _ _

theorem allowsTyping_secures : AllowsTyping calls naming Secures where
  toAllowsWork := allowsWork_secures
  className s id _ := secures_className id s
  formType := obeys_formType (.of_obeys secures_className) allowsWork_secures fun _ _ _ =>
    secures_of_eq rfl rfl rfl

/-! ## Classes -/

/-- The class of a normal form has the name that its schema has been given. -/
theorem returns_asType (id : SchemaId) (s : Session) :
    Returns (asType calls naming id) s fun r t =>
      ∀ c ∈ r, t.classNames.get? id = some c.name := by
  unfold asType
  refine .view_bind ?_
  split
  · exact .pure nofun
  · refine .bind (returns_className id s) fun n t hn => ?_
    refine .bind (.of_obeys (obeys_fieldsOf allowsTyping_secures _ _ _) t) fun fields u htu =>
      .pure ?_
    rintro _ ⟨⟩
    exact htu.named id n hn

/-- The class of a schema takes nobody's place. -/
theorem allowsClasses_secures : AllowsClasses calls naming Secures := by
  intro id c s t hrun
  have hname := (returns_asType id s).of_ok hrun c rfl
  refine ⟨fun _ _ h => h, fun ht => ⟨ht.schemas, fun n hn => ?_⟩, fun _ n k hk => ?_⟩
  · obtain ⟨k, hk⟩ := Option.isSome_iff_exists.1 hn
    rw [show (registerNew c).run t = (.ok (), { t with
      classes := t.classes.insertIfNew c.name c }) from rfl, Dict.get?_insertIfNew] at hk
    split at hk
    · next heq => exact heq ▸ ht.schemas id c.name hname
    · exact ht.classes n (Dict.contains_of_get? hk)
  · show (t.classes.insertIfNew c.name c).get? n = some k
    rw [Dict.get?_insertIfNew]
    split
    · next heq => rw [← heq, hk, Option.getD_some]
    · exact hk

/-- A class under a name that has just been given out takes nobody's place either. -/
theorem secures_register (hn : n ∉ s.takenNames) (c : Client.Class) :
    Secures s { s with
      takenNames := s.takenNames ++ [n], classes := s.classes.insert n c } := by
  refine ⟨fun _ _ h => h, fun hs => ⟨fun i m hm => ?_, fun m hm => ?_⟩, fun hs m k hk => ?_⟩
  · exact List.mem_append_left _ (hs.schemas i m hm)
  · obtain ⟨k, hk⟩ := Option.isSome_iff_exists.1 hm
    rw [Dict.get?_insert] at hk
    split at hk
    · next heq => exact List.mem_append_right _ (List.mem_singleton.2 heq)
    · exact List.mem_append_left _ (hs.classes m (Dict.contains_of_get? hk))
  · have hne : m ≠ n := by
      rintro rfl
      exact hn (hs.classes m (Dict.contains_of_get? hk))
    exact (Dict.get?_insert_of_ne _ hne c).trans hk

theorem secures_typeAt {document : Json} (p : Pointer) (required : Bool) :
    Obeys Secures (typeAt document calls naming p required) :=
  obeys_typeAt allowsTyping_secures
    ⟨fun _ _ => secures_of_eq rfl rfl rfl, fun _ _ _ => secures_of_eq rfl rfl rfl⟩
    allowsClasses_secures p required

end ApiModel.Session
