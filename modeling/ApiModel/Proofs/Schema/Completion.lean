/-
  ApiModel.Proofs.Schema.Completion

  Requests end. Where no loaded schema leads back to itself, a request that takes no further look at
  the document ends, however many schemas were made before it; and what it leaves is such a session
  again. Types and collections follow normal forms to those of their children, which are made on the
  way, so the induction is on what a normal form refers to in the sessions that follow.
-/
import ApiModel.Proofs.Schema.Request
import ApiModel.Proofs.Schema.Termination

namespace ApiModel.Session

open Work (Halts)
open Filter (atTop Tendsto)

variable {P : Json → Prop} {ι : Type} {l : Filter ι} {s t : Session} {document : Json}
  {naming : Naming} {id x y : SchemaId} {stack : List SchemaId}

/-! ## Sessions without cycles -/

/-- The type of a schema can refer to its parts and its alternatives. -/
theorem children_eq (m : Schema) : children m = m.parts ++ m.anyOf := by
  unfold children Schema.parts Arena.extraSchema?
  cases m.extras with
  | none => rfl
  | some e => cases e <;> rfl

/-- A lawful session in which no schema of the document leads back to itself. -/
structure Acyclic (P : Json → Prop) (s : Session) : Prop where
  lawful : s.Lawful (Arena.depth (P := P))
  free : s.arena.CycleFree

namespace Acyclic

theorem derives (hs : s.Acyclic P) (ht : t.Lawful (Arena.depth (P := P))) (hst : Derives s t) :
    t.Acyclic P :=
  ⟨ht, hs.free.mono hs.lawful.arena.toWellFormed hst.arena hst.raw⟩

/-- A change of what a session does not count as known. -/
theorem of_known (hs : s.Acyclic P) (hst : t.known = s.known) : t.Acyclic P :=
  hs.derives (hs.lawful.of_known hst).1 (hs.lawful.of_known hst).2.toDerives

/-- What comes second starts in a session without cycles. -/
theorem bind [l.NeBot] {α β : Type} {x : ι → SessionWork α} {f : ι → α → SessionWork β}
    {post : α → Session → Prop} (hs : s.Acyclic P) (hx : Halts l x s)
    (hkeeps : ∀ i, Keeps (Arena.depth (P := P)) (x i) s post)
    (hf : ∀ a t, t.Acyclic P → Stays s t → post a t → Halts l (fun i => f i a) t) :
    Halts l (fun i => x i >>= f i) s :=
  .bind hx hkeeps fun a t ht hst hpost => hf a t (hs.derives ht hst.toDerives) hst hpost

end Acyclic

/-- All sessions without cycles that have the schemas of `s` satisfy `C`. -/
def Henceforth (P : Json → Prop) (s : Session) (C : Session → Prop) : Prop :=
  ∀ t, t.Acyclic P → s.arena.Grows t.arena → C t

theorem Henceforth.mono {C : Session → Prop} (h : s.Henceforth P C)
    (hst : s.arena.Grows t.arena) : t.Henceforth P C :=
  fun u hu htu => h u hu (hst.trans htu)

theorem Henceforth.now {C : Session → Prop} (h : s.Henceforth P C) (hs : s.Acyclic P) : C s :=
  h s hs (.refl _)

/-- What a normal form takes over from those that it refers to, in the sessions that follow, holds
    of every normal form. -/
theorem Acyclic.induction {C : Session → SchemaId → Prop}
    (step : ∀ s x, s.Acyclic P → s.arena.IsForm x →
      s.Henceforth P (fun t => ∀ f, t.arena.Refers x f → C t f) → C s x)
    (hs : s.Acyclic P) (hx : s.arena.IsForm x) : C s x := by
  obtain ⟨d, hd⟩ := hs.free.exists_shallow hs.lawful.arena.toWellFormed
    (hs.lawful.arena.isForm_lt hx)
  -- on the depth, and on one depth on the members that are alternatives
  induction d generalizing s x with
  | zero => cases hd
  | succ d ihd =>
      refine hd.induction (C := fun x => s.Henceforth P fun t => t.arena.IsForm x → C t x)
        (fun x hd ihmember t ht hst hx => ?_) s hs (.refl _) hx
      refine step t x ht hx fun u hu htu f hxf => ?_
      have hf : u.arena.IsForm f := hu.lawful.isForm_of_refers hxf
      obtain ⟨c, hc, hform⟩ := hxf
      have hsu := hst.trans htu
      rw [hsu.schema x hd.lt, children_eq, List.mem_append] at hc
      rcases hc with hpart | halternative
      · have hdepth : u.arena.Shallow d f :=
          .of_done hu.lawful.arena hform ((hd.part hpart).grows hsu)
        exact ihd hu hf hdepth
      -- an alternative is its own normal form
      · have hself : u.arena.IsForm c := by
          have hbranch := (ht.lawful.arena.normal x hx).2 c
          rw [hst.schema x hd.lt] at hbranch
          exact htu.form (hbranch halternative)
        rw [hself] at hform
        cases hform
        exact ihmember f (by simp [Arena.Member, Schema.members, halternative]) u hu hsu hf

/-! ## Normal forms and conjunctions -/

section

variable {calls : ι → Nat}

theorem halts_normalize (hcalls : Tendsto calls l atTop) (hs : s.Acyclic P)
    (hid : id < s.arena.next) : Halts l (fun i => normalize (calls i) id) s := by
  have hfinishes : s.arena.Finishes (.normalize id) := hs.free.finishes hs.lawful.arena hid
  unfold normalize onArena
  exact .focus (hfinishes.comp hcalls)

theorem halts_conjoinAt (hcalls : Tendsto calls l atTop) (hs : s.Acyclic P)
    (hx : x < s.arena.next) (hy : y < s.arena.next) (place : Pointer) :
    Halts l (fun i => conjoinAt (calls i) x y place) s := by
  have hfinishes : s.arena.Finishes (.conjoin x y place) :=
    hs.free.finishes hs.lawful.arena ⟨hx, hy⟩
  unfold conjoinAt onArena
  exact .focus (hfinishes.comp hcalls)

theorem halts_normalize_bind [l.NeBot] {α : Type} {f : ι → Option SchemaId → SessionWork α}
    (hcalls : Tendsto calls l atTop) (hs : s.Acyclic P) (hid : id < s.arena.next)
    (hf : ∀ r t, t.Acyclic P → Stays s t → t.arena.progress.get? id = some (.done r) →
      Halts l (fun i => f i r) t) : Halts l (fun i => normalize (calls i) id >>= f i) s :=
  hs.bind (halts_normalize hcalls hs hid)
    (fun i => keeps_normalize Arena.upheld_depth hs.lawful (calls i) hid) hf

theorem halts_normalizeAll [l.NeBot] (hcalls : Tendsto calls l atTop) (hs : s.Acyclic P)
    {ids : List SchemaId} (hids : ∀ c ∈ ids, c < s.arena.next) :
    Halts l (fun i => normalizeAll (calls i) ids) s := by
  induction ids generalizing s with
  | nil => exact .pure
  | cons c ids ih =>
      unfold normalizeAll
      refine halts_normalize_bind hcalls hs (hids c (by simp)) fun r t ht hst _ => ?_
      have hrest : ∀ d ∈ ids, d < t.arena.next := fun d hd =>
        Nat.lt_of_lt_of_le (hids d (List.mem_cons_of_mem c hd)) hst.arena.next
      exact (ih ht hrest).bind_any fun _ _ => .pure

theorem halts_dependencies [l.NeBot] (hcalls : Tendsto calls l atTop) (hs : s.Acyclic P) :
    Halts l (fun i => dependencies (calls i) id) s :=
  .view_bind (halts_normalizeAll hcalls hs fun _ hc =>
    (hs.lawful.arena.proper id).links _ (mem_links_of_children hc))

/-! ## Types -/

theorem halts_className (id : SchemaId) : Halts l (fun _ => className naming id) s := by
  unfold className
  apply Halts.view_bind
  cases s.classNames.get? id with
  | some name => exact .pure
  | none =>
      have hallocate : ∀ module base, Halts l (fun _ => allocateName naming module base) s :=
        fun module base => .view_bind (.modify_bind .pure)
      exact .view_bind (.view_bind ((hallocate _ _).bind_any fun _ _ => .modify_bind .pure))

section

variable [l.NeBot] {typer : ι → Typer} {m : Schema}

theorem halts_formTypes (hs : s.Acyclic P)
    (hkeeper : ∀ i, Keeper (Arena.depth (P := P)) (typer i)) {ids : List SchemaId}
    (hids : ∀ b ∈ ids, s.arena.IsForm b)
    (htypes : ∀ b ∈ ids, s.Henceforth P (Halts l fun i => typer i b)) :
    Halts l (fun i => formTypes (typer i) ids) s := by
  induction ids generalizing s with
  | nil => exact .pure
  | cons b ids ih =>
      unfold formTypes
      have hb := hids b (by simp)
      refine hs.bind ((htypes b (by simp)).now hs) (fun i => hkeeper i b s hs.lawful hb) ?_
      intro u t ht hst _
      refine Halts.bind_any (ih ht (fun c hc => ?_) fun c hc => ?_) fun _ _ => .pure
      · exact hst.arena.form (hids c (List.mem_cons_of_mem b hc))
      · exact (htypes c (List.mem_cons_of_mem b hc)).mono hst.arena

/-- The normal form of a child, and something made of it. -/
theorem halts_child_bind {α : Type} {f : ι → Option SchemaId → SessionWork α}
    (hcalls : Tendsto calls l atTop) (hs : s.Acyclic P) (hid : id < s.arena.next)
    (hm : s.arena.schema id = m) {c : SchemaId} (hc : c ∈ children m)
    (hnone : ∀ t, t.Acyclic P → Stays s t → Halts l (fun i => f i none) t)
    (hsome : ∀ form t, t.Acyclic P → Stays s t → t.arena.Refers id form →
      Halts l (fun i => f i (some form)) t) :
    Halts l (fun i => normalize (calls i) c >>= f i) s := by
  have hlt : c < s.arena.next := by
    rw [← hm] at hc
    exact (hs.lawful.arena.proper id).links c (mem_links_of_children hc)
  refine halts_normalize_bind hcalls hs hlt fun r t ht hst hr => ?_
  cases r with
  | none => exact hnone t ht hst
  | some form =>
      obtain ⟨-, hmt⟩ := hst.schema hid hm
      exact hsome form t ht hst ⟨c, hmt ▸ hc, hr⟩

variable (hcalls : Tendsto calls l atTop) (hid : id < s.arena.next)
  (htypes : s.Henceforth P fun t => ∀ f, t.arena.Refers id f → Halts l (fun i => typer i f) t)

include hcalls hid htypes

theorem halts_objectType (hs : s.Acyclic P) (hm : s.arena.schema id = m) :
    Halts l (fun i => objectType (calls i) naming (typer i) id m) s := by
  unfold objectType
  refine .ite (fun _ => (halts_className id).bind_any fun _ _ => .pure) fun _ => ?_
  rcases hextras : m.extras with _ | (_ | _) | values
  case some.matching =>
    have hc : values ∈ children m := by simp [children, hextras]
    refine halts_child_bind hcalls hs hid hm hc (fun _ _ _ => .pure) ?_
    exact fun form t ht hst hrefers =>
      (htypes t ht hst.arena form hrefers).bind_any fun _ _ => .pure
  all_goals exact .pure

theorem halts_arrayType (hs : s.Acyclic P) (hm : s.arena.schema id = m) :
    Halts l (fun i => arrayType (calls i) (typer i) m) s := by
  unfold arrayType
  dsimp only
  cases hitems : m.items with
  | none => exact .pure
  | some items =>
      have hc : items ∈ children m := by simp [children, hitems]
      refine halts_child_bind hcalls hs hid hm hc ?_ ?_
      · exact fun _ _ _ => .view_bind (.modify_bind .pure)
      · exact fun form t ht hst hrefers =>
          (htypes t ht hst.arena form hrefers).bind_any fun _ _ => .pure

theorem halts_kindType (hs : s.Acyclic P) (hm : s.arena.schema id = m) (kinds : KindSet)
    (k : Kind) : Halts l (fun i => kindType (calls i) naming (typer i) id m kinds k) s := by
  cases k with
  | object => exact (halts_objectType hcalls hid htypes hs hm).bind_any fun _ _ => .pure
  | array => exact (halts_arrayType hcalls hid htypes hs hm).bind_any fun _ _ => .pure
  | _ => exact .pure

theorem halts_kindTypes (hs : s.Acyclic P) (hkeeper : ∀ i, Keeper (Arena.depth (P := P)) (typer i))
    (hm : s.arena.schema id = m) (hany : m.anyOf.isEmpty = true) {ks : List Kind}
    (hks : ∀ k ∈ ks, m.effectiveKinds.contains k = true) :
    Halts l (fun i => kindTypes (calls i) naming (typer i) id m m.effectiveKinds ks) s := by
  induction ks generalizing s with
  | nil => exact .pure
  | cons k ks ih =>
      unfold kindTypes
      refine hs.bind (halts_kindType hcalls hid htypes hs hm _ k) (fun i => keeps_kindType
        Arena.upheld_depth (hkeeper i) hs.lawful hid hm hany (hks k (by simp))) ?_
      intro r t ht hst _
      obtain ⟨hidt, hmt⟩ := hst.schema hid hm
      have hrest : Halts l (fun i =>
          kindTypes (calls i) naming (typer i) id m m.effectiveKinds ks) t :=
        ih hidt (htypes.mono hst.arena) ht hmt fun j hj => hks j (List.mem_cons_of_mem k hj)
      exact hrest.bind_any fun _ _ => .pure

/-- The type of a normal form comes back to those that it refers to. -/
theorem halts_freshType (hs : s.Acyclic P)
    (hkeeper : ∀ i, Keeper (Arena.depth (P := P)) (typer i)) (hform : s.arena.IsForm id) :
    Halts l (fun i => freshType (calls i) naming (typer i) id) s := by
  unfold freshType
  apply Halts.view_bind
  refine .ite (fun _ => .pure) fun _ => .ite (fun _ => ?_) fun hany => ?_
  · have hbranches := (hs.lawful.arena.normal id hform).2
    refine (halts_formTypes hs hkeeper hbranches fun b hb t ht hst => ?_).bind_any fun _ _ => .pure
    -- an alternative is its own normal form
    refine htypes t ht hst b ⟨b, ?_, hst.form (hbranches b hb)⟩
    rw [hst.schema id hid, children_eq]
    exact List.mem_append_right _ hb
  · dsimp only
    cases (s.arena.schema id).values with
    | some values => exact .pure
    | none =>
        let kinds := (s.arena.schema id).effectiveKinds
        have hkinds : Halts l (fun i =>
            kindTypes (calls i) naming (typer i) id (s.arena.schema id) kinds kinds.toList) s :=
          halts_kindTypes hcalls hid htypes hs hkeeper rfl (by simpa using hany)
            fun k hk => (List.mem_filter.1 hk).2
        exact hkinds.bind_any fun _ _ => .pure

end

/-- The type of a normal form is worked out when both supplies are large: that of the normalizations,
    and that of the types on the way. -/
theorem halts_formTypeWithin (hs : s.Acyclic P) (hform : s.arena.IsForm id) :
    Halts (atTop ×ˢ atTop) (fun i => formTypeWithin i.1 naming i.2 id) s := by
  refine hs.induction (C := fun s id =>
    Halts (atTop ×ˢ atTop) (fun i => formTypeWithin i.1 naming i.2 id) s) ?_ hform
  intro s id hs hform htypes
  refine .of_inner_step (x := fun calls n => formTypeWithin calls naming n id) ?_
  simp only [formTypeWithin, formTypeStep]
  apply Halts.view_bind
  cases s.types.get? id with
  | some u => exact .pure
  | none =>
      let t : Session := { s with typing := s.typing ++ [id] }
      have ht : t.Acyclic P := hs.of_known rfl
      have hfresh : Halts (atTop ×ˢ atTop) (fun i : Nat × Nat =>
          freshType i.1 naming (formTypeWithin i.1 naming i.2) id) t :=
        halts_freshType (s := t) Filter.tendsto_fst (hs.lawful.arena.isForm_lt hform) htypes ht
          (fun i => keeper_formTypeWithin Arena.upheld_depth i.2) hform
      refine .view_bind (.ite (fun _ => .view_bind .fault) fun _ => ?_)
      exact .modify_bind (.thenAlways hfresh)

theorem halts_formType (hs : s.Acyclic P) (hform : s.arena.IsForm id) :
    Halts atTop (fun calls => formType calls naming id) s :=
  .diagonal (x := fun calls n => formTypeWithin calls naming n id) (halts_formTypeWithin hs hform)

theorem halts_positionType (hs : s.Acyclic P) (hid : id < s.arena.next) (required : Bool) :
    Halts atTop (fun calls => positionType calls naming id required) s := by
  unfold positionType
  refine halts_normalize_bind Filter.tendsto_id hs hid fun r t ht _ hr => ?_
  cases r with
  | none => exact .pure
  | some form =>
      have hform := ht.lawful.arena.form id form hr
      exact (halts_formType ht hform).bind_any fun _ _ => .pure

end

/-! ## Classes -/

theorem halts_fieldsOf (hs : s.Acyclic P) (required : SortedSet String)
    {es : List (String × SchemaId)} (hes : ∀ e ∈ es, e.2 < s.arena.next)
    (fields : List Client.Field) :
    Halts atTop (fun calls => fieldsOf calls naming required es fields) s := by
  induction es generalizing s fields with
  | nil => exact .pure
  | cons e es ih =>
      obtain ⟨wireName, child⟩ := e
      have hchild : child < s.arena.next := hes (wireName, child) (by simp)
      have hrest : ∀ {t}, Stays s t → ∀ e ∈ es, e.2 < t.arena.next := fun hst e he =>
        Nat.lt_of_lt_of_le (hes e (List.mem_cons_of_mem _ he)) hst.arena.next
      unfold fieldsOf
      refine halts_normalize_bind Filter.tendsto_id hs hchild fun r t ht hst hr => ?_
      cases r with
      | none =>
          refine .view_bind (ht.bind .modify (fun _ => keeps_warn ht.lawful _) ?_)
          exact fun _ u hu htu _ => ih hu (hrest (trans_of Stays hst htu)) fields
      | some form =>
          have hform := ht.lawful.arena.form child form hr
          refine ht.bind (halts_formType ht hform) (fun calls => keeper_formTypeWithin
            Arena.upheld_depth calls form t ht.lawful hform) fun type u hu htu _ => ?_
          exact .view_bind (.view_bind (ih hu (hrest (trans_of Stays hst htu)) _))

theorem halts_asType (hs : s.Acyclic P) :
    Halts atTop (fun calls => asType calls naming id) s := by
  unfold asType
  refine .view_bind (.ite (fun _ => .pure) fun _ => ?_)
  refine hs.bind (halts_className id) (fun _ => keeps_className hs.lawful id) ?_
  intro name t ht hst _
  refine (halts_fieldsOf ht _ (fun e he => ?_) []).bind_any fun _ _ => .pure
  -- the properties were there before the class got its name
  have hvalue : e.2 ∈ (s.arena.schema id).properties.values := List.mem_map.2 ⟨e, he, rfl⟩
  have hlink : e.2 ∈ (s.arena.schema id).links := by
    apply mem_links_of_children
    simp [children, hvalue]
  exact Nat.lt_of_lt_of_le ((hs.lawful.arena.proper id).links _ hlink) hst.arena.next

/-! ## Collections -/

/-- With enough nested calls and steps the collection from a stack ends. -/
def Collects (naming : Naming) (stack : List SchemaId) (s : Session) : Prop :=
  Halts (atTop ×ˢ atTop) (fun i => collectWithin i.1 naming i.2 stack) s

/-- With the schema on top a collection ends if it ends with the rest in all sessions that follow. -/
def Absorbed (P : Json → Prop) (naming : Naming) (s : Session) (x : SchemaId) : Prop :=
  ∀ stack, s.Henceforth P (Collects naming stack) → Collects naming (x :: stack) s

theorem collects_nil : Collects naming [] s := by
  refine .of_inner_step (x := fun calls n => collectWithin calls naming n []) ?_
  exact .pure

theorem collects_append (hs : s.Acyclic P) {found : List SchemaId}
    (hfound : ∀ f ∈ found, s.Henceforth P fun t => Absorbed P naming t f)
    (hstack : s.Henceforth P (Collects naming stack)) : Collects naming (found ++ stack) s := by
  induction found generalizing s with
  | nil => exact hstack.now hs
  | cons f found ih =>
      refine (hfound f (by simp)).now hs (found ++ stack) fun t ht hst => ?_
      exact ih ht (fun g hg => (hfound g (List.mem_cons_of_mem f hg)).mono hst) (hstack.mono hst)

/-- What the top of a stack refers to is worked off before the rest. -/
theorem halts_explore (hs : s.Acyclic P) (hx : x < s.arena.next)
    (hrefers : s.Henceforth P fun t => ∀ f, t.arena.Refers x f → Absorbed P naming t f)
    (hstack : s.Henceforth P (Collects naming stack)) :
    Halts (atTop ×ˢ atTop) (fun i => do
      let found ← dependencies i.1 x
      collectWithin i.1 naming i.2 (found ++ stack)) s := by
  refine hs.bind (halts_dependencies Filter.tendsto_fst hs)
    (fun i => keeps_dependencies Arena.upheld_depth hs.lawful hx) fun found t ht hst hfound => ?_
  refine collects_append ht (fun f hf u hu htu => ?_) (hstack.mono hst.arena)
  exact hrefers u hu (hst.arena.trans htu) f (refers_of_grows htu (hfound.1 f hf))

/-- A schema is worked off if all that it refers to are. -/
theorem absorbed_of_refers (hs : s.Acyclic P) (hx : x < s.arena.next)
    (hrefers : s.Henceforth P fun t => ∀ f, t.arena.Refers x f → Absorbed P naming t f) :
    Absorbed P naming s x := by
  intro stack hstack
  refine .of_inner_step (x := fun calls n => collectWithin calls naming n (x :: stack)) ?_
  simp only [collectWithin]
  refine .view_bind (.ite (fun _ => hstack.now hs) fun _ => ?_)
  obtain ⟨hmarked, hsm⟩ := hs.lawful.collect hx
  have hm := hs.derives hmarked hsm
  have hrest : s.Henceforth P (Halts (atTop ×ˢ atTop) fun i => do
      let found ← dependencies i.1 x
      collectWithin i.1 naming i.2 (found ++ stack)) := fun t ht hst =>
    halts_explore ht (Nat.lt_of_lt_of_le hx hst.next) (hrefers.mono hst) (hstack.mono hst)
  refine .modify_bind (hm.bind ((halts_asType hm).comp Filter.tendsto_fst)
    (fun i => keeps_asType Arena.upheld_depth hmarked hx) fun c t ht hmt hc => ?_)
  cases c with
  | none => exact hrest t ht (hsm.arena.trans hmt.arena)
  | some c =>
      have hmem : x ∈ t.collected := by simp [hmt.same]
      have hpromised : ∀ f ∈ c.fields, ∀ n ∈ f.type.names, t.Promised n :=
        fun f hf n hn => .inr ⟨x, hmem, (hc.2 c rfl).2 f hf n hn⟩
      refine ht.bind .modify (fun _ => keeps_registerNew ht.lawful hpromised) fun _ u hu htu _ => ?_
      exact hrest u hu ((hsm.arena.trans hmt.arena).trans htu.arena)

/-- Every schema is worked off: normal forms because what they refer to is, others because they
    refer to normal forms. -/
theorem absorbed (hs : s.Acyclic P) (hx : x < s.arena.next) : Absorbed P naming s x := by
  refine absorbed_of_refers hs hx fun t ht _ f hxf => ?_
  refine ht.induction (C := Absorbed P naming) (fun u y hu hy => ?_) (ht.lawful.isForm_of_refers hxf)
  exact absorbed_of_refers hu (hu.lawful.arena.isForm_lt hy)

theorem halts_collect (hs : s.Acyclic P) {roots : List SchemaId}
    (hroots : ∀ x ∈ roots, x < s.arena.next) :
    Halts atTop (fun calls => collect calls naming roots) s := by
  have hall : Collects naming (roots ++ []) s := by
    refine collects_append hs (fun x hx t ht hst => ?_) fun _ _ _ => collects_nil
    exact absorbed ht (Nat.lt_of_lt_of_le (hroots x hx) hst.next)
  rw [List.append_nil] at hall
  exact .diagonal (x := fun calls n => collectWithin calls naming n roots) hall

/-! ## Requests -/

/-- A request that takes no further look at the document ends. -/
theorem halts_answer (hs : s.Acyclic P) {r : Request} (hr : r.Offline)
    (hids : ∀ id ∈ r.ids, id < s.arena.next) :
    Halts atTop (fun calls => answer document naming calls r) s := by
  cases r with
  | load p => cases hr
  | typeAt p required => cases hr
  | normalize id =>
      have hid : id < s.arena.next := hids id (by simp [Request.ids])
      exact .discard (halts_normalize Filter.tendsto_id hs hid)
  | conjoin a b =>
      have ha : a < s.arena.next := hids a (by simp [Request.ids])
      have hb : b < s.arena.next := hids b (by simp [Request.ids])
      exact .discard (.view_bind (halts_conjoinAt Filter.tendsto_id hs ha hb _))
  | conjoinAt a b place =>
      have ha : a < s.arena.next := hids a (by simp [Request.ids])
      have hb : b < s.arena.next := hids b (by simp [Request.ids])
      exact .discard (halts_conjoinAt Filter.tendsto_id hs ha hb place)
  | positionType id required =>
      exact .discard (halts_positionType hs (hids id (by simp [Request.ids])) required)
  | asType id => exact .discard (halts_asType hs)
  | dependencies id => exact .discard (halts_dependencies Filter.tendsto_id hs)
  | collect roots => exact halts_collect hs hids

/-- The session `t` is left by a call to `s` that takes no further look at the document; it may have
    failed, and its supply may have been too small. -/
def OfflineStep (document : Json) (naming : Naming) (s t : Session) : Prop :=
  ∃ (c : Call) (calls : Nat), c.Offline ∧ c.Admissible s ∧
    t = ((perform document naming calls c).run s).2

/-- The session `t` is left by a sequence of such calls to `s`. -/
abbrev OfflineLater (document : Json) (naming : Naming) : Session → Session → Prop :=
  Relation.ReflTransGen (OfflineStep document naming)

theorem Acyclic.step (hs : s.Acyclic P) (h : OfflineStep document naming s t) : t.Acyclic P := by
  obtain ⟨c, calls, hoffline, hc, rfl⟩ := h
  rcases c.ask_or_aside with ⟨r, rfl⟩ | haside
  · have hworks : Works (Arena.depth (P := P)) (answer document naming calls r) s fun _ _ => True :=
      works_answer Arena.upheld_depth hs.lawful hoffline hc.ids
    rw [run_perform_ask]
    exact hs.derives hworks.final.1 hworks.final.2
  · refine ⟨lawful_perform hs.lawful haside hc, ?_⟩
    rw [(obeys_spares_perform haside s).arena]
    exact hs.free

theorem Acyclic.later (hs : s.Acyclic P) (h : OfflineLater document naming s t) : t.Acyclic P := by
  induction h with
  | refl => exact hs
  | tail _ hstep ih => exact ih.step hstep

/-- Where no loaded schema leads back to itself, every request in a sequence of them ends, with a
    value or with a fault of the document, if the supply of nested calls is large enough; and any
    such supply leads to the same. -/
theorem exists_supply_of_cycleFree (hs : Reachable document naming s)
    (hfree : s.arena.CycleFree) (ht : OfflineLater document naming s t) {r : Request}
    (hr : r.Offline) (hids : ∀ id ∈ r.ids, id < t.arena.next) :
    ∃ n out u, (∀ calls, n ≤ calls → (answer document naming calls r).run t = (out, u)) ∧
      out ≠ .error .exhausted := by
  have hlawful : s.Lawful (Arena.depth (P := fun _ => True)) :=
    hs.lawful Arena.upheld_depth hereditary_true trivial
  have hacyclic : s.Acyclic fun _ => True := ⟨hlawful, hfree⟩
  exact (halts_answer (hacyclic.later ht) hr hids).exists_supply

/-- Lists of texts or integers that are asked to be lists of texts or null as well. -/
def overlappingLists : Json :=
  .obj [
    ("a", .obj [("allOf", .arr [
      .obj [("$ref", .str "#/b")],
      .obj [("properties", .obj [("x", .obj [("items", .obj [("anyOf", .arr [
        .obj [("type", .str "string")], .obj [("type", .str "null")]])])])])]])]),
    ("b", .obj [("type", .str "object"), ("properties", .obj [("x", .obj [
      ("type", .str "array"), ("items", .obj [("oneOf", .arr [
        .obj [("type", .str "string")], .obj [("type", .str "integer")]])])])])])]

/-- The session that has loaded it. -/
def overlappingLoaded : Session :=
  ((answer overlappingLists .marked 1 (.load (Pointer.root.push "a"))).run .empty).2

theorem reachable_overlappingLists : Reachable overlappingLists .marked overlappingLoaded :=
  .single (step_ask (.load (Pointer.root.push "a")) 1 (by simp [Request.ids]))

/-- Every schema was loaded before those that it refers to. -/
theorem cycleFree_overlappingLists : overlappingLoaded.arena.CycleFree :=
  .of_rank (fun x => 11 - x) (by decide +kernel)

/-- When the list schemas have been conjoined, the classes of what came of that can be collected. -/
theorem exists_supply_overlappingLists :
    let t := ((answer overlappingLists .marked 20 (.normalize 0)).run overlappingLoaded).2
    (t.arena.progress.get? 0 = some (.done (some 25))) ∧
      ∃ n out u, (∀ calls, n ≤ calls →
        (answer overlappingLists .marked calls (.collect [25])).run t = (out, u)) ∧
          out ≠ .error .exhausted := by
  intro t
  have hstep : OfflineStep overlappingLists .marked overlappingLoaded t :=
    ⟨.ask (.normalize 0), 20, trivial, ⟨by simp [Call.ids, Request.ids]; decide +kernel, nofun⟩,
      by rw [run_perform_ask]⟩
  have hlt : 25 < t.arena.next := by decide +kernel
  refine ⟨by decide +kernel, ?_⟩
  exact exists_supply_of_cycleFree reachable_overlappingLists cycleFree_overlappingLists
    (.single hstep) (r := .collect [25]) trivial (by simpa [Request.ids] using hlt)

end ApiModel.Session
