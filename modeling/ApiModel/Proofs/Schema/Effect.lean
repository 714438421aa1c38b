/-
  ApiModel.Proofs.Schema.Effect

  What loading, typing and collecting do to a session. Loading and typing add to the arena, to the
  tables of loaded pointers and of types, and to the warnings, and they give out class names;
  collecting marks normal forms and registers their classes besides. A relation between sessions
  that allows these changes holds between the sessions before and after, wherever a step starts and
  however it ends.
-/
import ApiModel.Proofs.Schema.Passage
import ApiModel.Schema.Class

namespace ApiModel.Session

open Work

/-- A relation between sessions that allows changes of the arena and further warnings, and does not
    look at marks. -/
structure AllowsWork (R : Session → Session → Prop) : Prop where
  arena : ∀ s arena, s.arena.Change arena → R s { s with arena := arena }
  marked : ∀ s collected, R s { s with collected := collected }
  warned : ∀ s w, R s { s with warnings := s.warnings ++ [w] }

/-- A relation that does not look at names either. -/
structure AllowsSteps (R : Session → Session → Prop) : Prop extends AllowsWork R where
  named : ∀ s taken names, R s { s with takenNames := taken, classNames := names }

/-- A relation that does not look at types either. -/
structure AllowsTypes (R : Session → Session → Prop) : Prop extends AllowsSteps R where
  typing : ∀ s types typing, R s { s with types := types, typing := typing }

/-- A relation that allows schemas to be read from the document: they are filled in, and found by
    their pointers. -/
structure AllowsLoading (R : Session → Session → Prop) : Prop where
  loaded : ∀ s loaded, R s { s with loaded := loaded }
  read : ∀ s id m, R s { s with arena := s.arena.replace id m }

/-- A relation that does not look at loaded pointers either. -/
structure Allows (R : Session → Session → Prop) : Prop extends AllowsTypes R, AllowsLoading R

/-- A relation that allows schemas to be named where `G` holds. That is so wherever a schema has
    properties, and it stays so. -/
structure AllowsNames (naming : Naming) (G : Session → SchemaId → Prop)
    (R : Session → Session → Prop) : Prop where
  named : ∀ s id, G s id → R s ((className naming id).run s).2
  guard : ∀ s id, (s.arena.schema id).properties.isEmpty = false → G s id
  kept : ∀ {s t id}, R s t → G s id → G t id

/-- A relation that allows what types are worked out with: schemas with properties are named, and
    types are remembered, as it wants them to be. -/
structure AllowsTyping (calls : Nat) (naming : Naming) (R : Session → Session → Prop) : Prop
    extends AllowsWork R where
  className : ∀ s id, (s.arena.schema id).properties.isEmpty = false →
    R s ((className naming id).run s).2
  formType : ∀ id, Obeys R (formType calls naming id)

variable {R : Session → Session → Prop} {naming : Naming} {loader : Loader} {typer : Typer}
  {calls : Nat} {document : Json} {place : Pointer} {fields : List (String × Json)}

variable [IsPreorder Session R]

theorem obeys_warn (hR : AllowsWork R) (w : Warning) : Obeys R (warn w) := by
  refine .modify fun s => ?_
  split
  · exact refl_of R s
  · exact hR.warned s w

/-- The changes of the arena are allowed one after the other. -/
theorem AllowsWork.changes (hR : AllowsWork R) (s : Session) {a : Arena} (h : s.arena.Changes a) :
    R s { s with arena := a } := by
  induction h with
  | refl => exact refl_of R s
  | @tail a b _ hchange ih => exact trans_of R ih (hR.arena { s with arena := a } b hchange)

theorem obeys_solve (hR : AllowsWork R) (task : Task) :
    Obeys R (onArena (Arena.solve calls task)) :=
  fun s => hR.changes s (Arena.obeys_solve (fun _ _ => .single) calls task s.arena)

theorem obeys_normalize (hR : AllowsWork R) (id : SchemaId) : Obeys R (normalize calls id) :=
  obeys_solve hR _

/-! ## Loading -/

theorem obeys_loadItems (hload : ∀ p, Obeys R (loader p)) :
    Obeys R (loadItems loader place fields) := by
  unfold loadItems
  split
  · exact .pure _
  · exact .fault _
  · exact .bind (hload _) fun _ => .pure _

theorem obeys_loadProperties (hload : ∀ p, Obeys R (loader p)) (keys : List String)
    (read : Dict String SchemaId) : Obeys R (loadProperties loader place keys read) := by
  induction keys generalizing read with
  | nil => exact .pure _
  | cons key keys ih => exact .bind (hload _) fun _ => ih _

theorem obeys_loadExtras (hload : ∀ p, Obeys R (loader p)) :
    Obeys R (loadExtras loader place fields) := by
  unfold loadExtras
  split
  · exact .pure _
  · exact .pure _
  · exact .bind (hload _) fun _ => .pure _

theorem obeys_loadFrom (hload : ∀ p, Obeys R (loader p)) (i : Nat) (items : List Json) :
    Obeys R (loadFrom loader place i items) := by
  induction items generalizing i with
  | nil => exact .pure _
  | cons v items ih => exact .bind (hload _) fun _ => .bind (ih _) fun _ => .pure _

theorem obeys_loadMembers (hload : ∀ p, Obeys R (loader p)) (keyword : String) :
    Obeys R (loadMembers loader place fields keyword) := by
  unfold loadMembers
  split
  · exact .pure _
  · exact obeys_loadFrom hload _ _
  · exact .fault _

theorem obeys_push (hR : AllowsWork R) (m : Schema) : Obeys R (push m) :=
  .view_bind fun _ => .bind (.modify fun s => hR.arena s _ (.pushed m)) fun _ => .pure _

theorem obeys_allowNull (hR : AllowsWork R) (m : Schema) : Obeys R (allowNull m) := by
  unfold allowNull
  split
  · exact .pure _
  · split
    · exact .bind (obeys_push hR _) fun _ => .bind (obeys_push hR _) fun _ => .pure _
    · exact .pure _

theorem obeys_readSchema (hR : AllowsWork R) (hload : ∀ p, Obeys R (loader p)) (v : Json) :
    Obeys R (readSchema loader place v) := by
  unfold readSchema
  split
  · exact .pure _
  · exact .pure _
  · refine .bind (.ofExcept _) fun keywords => ?_
    refine .bind (obeys_loadItems hload) fun items => ?_
    refine .bind (obeys_loadProperties hload _ _) fun properties => ?_
    refine .bind (obeys_loadExtras hload) fun extras => ?_
    refine .bind (obeys_loadMembers hload _) fun allOf => ?_
    refine .bind (obeys_loadMembers hload _) fun anyOf => ?_
    refine .bind (obeys_loadMembers hload _) fun oneOf => ?_
    have hnull : ∀ (nullable : Bool) m, Obeys R (if nullable then allowNull m else pure m) := by
      intro nullable m
      split
      · exact obeys_allowNull hR _
      · exact .pure _
    dsimp only
    split
    · exact .bind (obeys_warn hR _) fun _ => hnull _ _
    · exact hnull _ _
  · exact .fault _

theorem obeys_loadStep (hR : AllowsWork R) (hloading : AllowsLoading R)
    (hload : ∀ p, Obeys R (loader p)) (p : Pointer) : Obeys R (loadStep document loader p) := by
  have hremember : ∀ q id, Obeys R (remember q id) := fun q id =>
    .modify fun s => hloading.loaded s _
  unfold loadStep
  refine .view_bind fun known => ?_
  split
  · exact .pure _
  refine .bind (.ofExcept _) fun r => .view_bind fun known => ?_
  split
  · exact .bind (hremember _ _) fun _ => .pure _
  refine .bind (obeys_push hR _) fun id => .bind (hremember _ _) fun _ => ?_
  refine .bind (hremember _ _) fun _ => .bind (obeys_readSchema hR hload _) fun m => ?_
  exact .bind (.modify fun s => hloading.read s id m) fun _ => .pure _

theorem obeys_load (hR : AllowsWork R) (hloading : AllowsLoading R) (p : Pointer) :
    Obeys R (load document p) := by
  have hwithin : ∀ n p, Obeys R (loadWithin document n p) := by
    intro n
    induction n with
    | zero => exact fun _ => .exhausted
    | succ n ih => exact fun p => obeys_loadStep hR hloading ih p
  exact hwithin _ p

/-! ## Typing -/

theorem obeys_allocateName (hR : AllowsSteps R) (module : List String) (base : String) :
    Obeys R (allocateName naming module base) :=
  .view_bind fun _ => .bind (.modify fun s => hR.named s _ s.classNames) fun _ => .pure _

theorem run_className_of_known (naming : Naming) {s : Session} {id : SchemaId} {n : TypeName}
    (h : s.classNames.get? id = some n) : (className naming id).run s = (.ok n, s) := by
  unfold className
  rw [run_bind, run_view, h]
  rfl

/-- A schema that has no name yet is given one. -/
theorem run_className_of_new (naming : Naming) {s : Session} {id : SchemaId}
    (h : s.classNames.get? id = none) :
    ∃ n, (className naming id).run s = (.ok n, { s with
      takenNames := s.takenNames ++ [n], classNames := s.classNames.insert id n }) := by
  unfold className
  rw [run_bind, run_view, h]
  exact ⟨_, rfl⟩

theorem obeys_className (hR : AllowsSteps R) (id : SchemaId) : Obeys R (className naming id) := by
  unfold className
  refine .view_bind fun known => ?_
  split
  · exact .pure _
  · refine .view_bind fun _ => .view_bind fun _ => .bind (obeys_allocateName hR _ _) fun _ => ?_
    exact .bind (.modify fun s => hR.named s s.takenNames _) fun _ => .pure _

theorem obeys_formTypes (htyper : ∀ id, Obeys R (typer id)) (ids : List SchemaId) :
    Obeys R (formTypes typer ids) := by
  induction ids with
  | nil => exact .pure _
  | cons id ids ih => exact .bind (htyper id) fun _ => .bind ih fun _ => .pure _

omit [IsPreorder Session R] in
/-- Where every schema may be named, no guard is needed. -/
theorem AllowsNames.of_obeys (h : ∀ id, Obeys R (className naming id)) :
    AllowsNames naming (fun _ _ => True) R :=
  ⟨fun s id _ => h id s, fun _ _ _ => trivial, fun _ _ => trivial⟩

section

variable {G : Session → SchemaId → Prop} (hnames : AllowsNames naming G R)

include hnames in
theorem leads_objectType (hR : AllowsWork R) (htyper : ∀ id, Obeys R (typer id)) {id : SchemaId}
    {m : Schema} {s : Session} (hm : m.properties.isEmpty = false → G s id) :
    Leads R (objectType calls naming typer id m) s := by
  unfold objectType
  split
  · next hprops =>
      exact .bind (hnames.named s id (hm (by simpa using hprops))) fun _ _ _ => .pure _
  refine Obeys.leads ?_ s
  split
  · refine .bind (obeys_normalize hR _) fun form => ?_
    split
    · exact .bind (htyper _) fun _ => .pure _
    · exact .pure _
  · exact .pure _

theorem obeys_arrayType (hR : AllowsWork R) (htyper : ∀ id, Obeys R (typer id)) (m : Schema) :
    Obeys R (arrayType calls typer m) := by
  unfold arrayType
  dsimp only
  split
  · exact .pure _
  · refine .bind (obeys_normalize hR _) fun form => ?_
    split
    · exact .bind (htyper _) fun _ => .pure _
    · exact .view_bind fun _ => .bind (obeys_warn hR _) fun _ => .pure _

include hnames in
/-- One kind after the other; the guard is kept on the way. -/
theorem leads_kindTypes (hR : AllowsWork R) (htyper : ∀ id, Obeys R (typer id)) {id : SchemaId}
    {m : Schema} (kinds : KindSet) (ks : List Kind) {s : Session}
    (hm : m.properties.isEmpty = false → G s id) :
    Leads R (kindTypes calls naming typer id m kinds ks) s := by
  induction ks generalizing s with
  | nil => exact .pure _
  | cons k ks ih =>
      have hkind : Leads R (kindType calls naming typer id m kinds k) s := by
        cases k with
        | object => exact .bind (leads_objectType hnames hR htyper hm) fun _ _ _ => .pure _
        | array => exact (obeys_arrayType hR htyper m).leads s |>.bind fun _ _ _ => .pure _
        | _ => exact .pure _
      refine .bind hkind fun type t hrun => ?_
      unfold Leads at hkind
      rw [hrun] at hkind
      exact .bind (ih fun hprops => hnames.kept hkind (hm hprops)) fun _ _ _ => .pure _

include hnames in
theorem obeys_freshType (hR : AllowsWork R) (htyper : ∀ id, Obeys R (typer id))
    (id : SchemaId) : Obeys R (freshType calls naming typer id) := by
  intro s
  refine Leads.view_bind ?_
  split
  · exact .pure _
  split
  · exact (obeys_formTypes htyper _).leads s |>.bind fun _ _ _ => .pure _
  dsimp only
  split
  · exact .pure _
  · exact .bind (leads_kindTypes hnames hR htyper _ _ (hnames.guard s id)) fun _ _ _ => .pure _

include hnames in
theorem obeys_formType (hR : AllowsWork R)
    (htyping : ∀ s types typing, R s { s with types := types, typing := typing }) (id : SchemaId) :
    Obeys R (formType calls naming id) := by
  have hwithin : ∀ n id, Obeys R (formTypeWithin calls naming n id) := by
    intro n
    induction n with
    | zero => exact fun _ => .exhausted
    | succ n ih =>
        intro id
        unfold formTypeWithin formTypeStep
        refine .view_bind fun known => ?_
        split
        · exact .pure _
        refine .view_bind fun path => ?_
        split
        · exact .view_bind fun _ => .fault _
        refine .bind (.modify fun s => htyping s s.types _) fun _ => ?_
        refine .thenAlways (obeys_freshType hnames hR ih id) fun r s => ?_
        cases r with
        | ok t => exact htyping s _ _
        | error e => exact htyping s s.types _
  exact hwithin _ id

omit hnames in
theorem AllowsTypes.allowsTyping (hR : AllowsTypes R) : AllowsTyping calls naming R where
  toAllowsWork := hR.toAllowsWork
  className s id _ := obeys_className hR.toAllowsSteps id s
  formType := obeys_formType (.of_obeys (obeys_className hR.toAllowsSteps)) hR.toAllowsWork
    hR.typing

end

theorem obeys_positionType (hR : AllowsTyping calls naming R) (id : SchemaId) (required : Bool) :
    Obeys R (positionType calls naming id required) := by
  unfold positionType
  refine .bind (obeys_normalize hR.toAllowsWork id) fun form => ?_
  split
  · exact .bind (hR.formType _) fun _ => .pure _
  · exact .pure _

/-! ## Classes -/

theorem obeys_fieldsOf (hR : AllowsTyping calls naming R) (required : SortedSet String)
    (es : List (String × SchemaId)) (done : List Client.Field) :
    Obeys R (fieldsOf calls naming required es done) := by
  induction es generalizing done with
  | nil => exact .pure _
  | cons e es ih =>
      obtain ⟨wireName, child⟩ := e
      unfold fieldsOf
      refine .bind (obeys_normalize hR.toAllowsWork _) fun form => ?_
      split
      · exact .view_bind fun _ => .bind (obeys_warn hR.toAllowsWork _) fun _ => ih _
      · exact .bind (hR.formType _) fun _ => .view_bind fun _ => .view_bind fun _ => ih _

theorem obeys_asType (hR : AllowsTyping calls naming R) (id : SchemaId) :
    Obeys R (asType calls naming id) := by
  intro s
  refine Leads.view_bind ?_
  split
  · exact .pure _
  · next hclass =>
      have hprops : (s.arena.schema id).properties.isEmpty = false := by
        simp only [isClass, Bool.not_eq_true, Bool.not_eq_false', Bool.and_eq_true] at hclass
        simpa using hclass.2
      exact .bind (hR.className s id hprops) fun name t _ =>
        (obeys_fieldsOf hR _ _ _).leads t |>.bind fun _ _ _ => .pure _

theorem obeys_dependencies (hR : AllowsWork R) (id : SchemaId) :
    Obeys R (dependencies calls id) := by
  have hall : ∀ ids, Obeys R (normalizeAll calls ids) := by
    intro ids
    induction ids with
    | nil => exact .pure _
    | cons id ids ih => exact .bind (obeys_normalize hR id) fun _ => .bind ih fun _ => .pure _
  exact .view_bind fun _ => hall _

/-- The relation allows a class to be registered as it has been made of a normal form. -/
def AllowsClasses (calls : Nat) (naming : Naming) (R : Session → Session → Prop) : Prop :=
  ∀ id c s t, (asType calls naming id).run s = (.ok (some c), t) →
    R t ((registerNew c).run t).2

/-- The class of a normal form is registered only as it is made. -/
theorem obeys_collect (hR : AllowsTyping calls naming R) (hclasses : AllowsClasses calls naming R)
    (roots : List SchemaId) : Obeys R (collect calls naming roots) := by
  have hwithin : ∀ n stack, Obeys R (collectWithin calls naming n stack) := by
    intro n
    induction n with
    | zero =>
        intro stack
        cases stack with
        | nil => exact .pure _
        | cons => exact .exhausted
    | succ n ih =>
        intro stack
        cases stack with
        | nil => exact .pure _
        | cons id stack =>
            unfold collectWithin
            refine .view_bind fun known => ?_
            split
            · exact ih stack
            refine .bind (.modify fun s => hR.marked s _) fun _ => ?_
            have hrest : Obeys R (dependencies calls id >>= fun found =>
                collectWithin calls naming n (found ++ stack)) :=
              .bind (obeys_dependencies hR.toAllowsWork id) fun found => ih _
            refine .bind_at (obeys_asType hR id) fun s c t hrun => ?_
            cases c with
            | none => exact hrest t
            -- registering a class always gives a result
            | some c => exact trans_of R (hclasses id c s t hrun) (hrest _)
  exact hwithin _ roots

/-- Working out the type of a schema registers classes of schemas, and no others. -/
theorem obeys_typeOf (hR : AllowsTyping calls naming R) (hclasses : AllowsClasses calls naming R)
    (id : SchemaId) (required : Bool) : Obeys R (do
      let type ← positionType calls naming id required
      if let some form ← normalize calls id then collect calls naming [form]
      return type) := by
  refine .bind (obeys_positionType hR id required) fun type => ?_
  refine .bind (obeys_normalize hR.toAllowsWork id) fun form => ?_
  split
  · exact .bind (obeys_collect hR hclasses _) fun _ => .pure _
  · exact .pure _

theorem obeys_typeAt (hR : AllowsTyping calls naming R) (hloading : AllowsLoading R)
    (hclasses : AllowsClasses calls naming R) (p : Pointer) (required : Bool) :
    Obeys R (typeAt document calls naming p required) :=
  .bind (obeys_load hR.toAllowsWork hloading p) fun id => obeys_typeOf hR hclasses id required

end ApiModel.Session
