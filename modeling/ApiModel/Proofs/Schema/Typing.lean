/-
  ApiModel.Proofs.Schema.Typing

  The types of normal forms, and the classes that they name. A type is worked out along the items,
  extra properties and alternatives of a normal form and stops where a class is named; so every class
  that it names is one that the normal form leads to. The memo of types keeps this of all its
  entries.
-/
import ApiModel.Proofs.Schema.Session
import ApiModel.Proofs.TypeExpr

namespace ApiModel.Session

open Work

variable {P : Json → Prop} {L : Arena.Law P} {s t : Session} {naming : Naming} {typer : Typer}
  {calls : Nat} {id : SchemaId} {m : Schema}

theorem keeps_warn (hs : s.Lawful L) (w : Warning) : Keeps L (warn w) s fun _ _ => True := by
  refine (keeps_modify hs ?_).mono fun _ _ _ _ _ => trivial
  show (if w ∈ s.warnings then s else { s with warnings := s.warnings ++ [w] }).known = s.known
  split
  · rfl
  · rfl

/-! ## Normal forms and their children -/

/-- A schema that exists stays as it is. -/
theorem Follows.schema (h : Follows s t) (hid : id < s.arena.next) (hm : s.arena.schema id = m) :
    id < t.arena.next ∧ t.arena.schema id = m :=
  ⟨Nat.lt_of_lt_of_le hid h.arena.next, (h.arena.schema id hid).trans hm⟩

/-- The schemas that the type of a schema can refer to are among its links. -/
theorem mem_links_of_children {m : Schema} {c : SchemaId} (hc : c ∈ children m) :
    c ∈ m.links := by
  simp only [children, List.mem_append] at hc
  simp only [Schema.links, Schema.members, Arena.extraSchema?, List.mem_append]
  rcases hc with ((hc | hc) | hc) | hc
  · simp [hc]
  · simp [hc]
  · revert hc
    cases m.extras with
    | none => simp
    | some e => cases e <;> simp_all
  · simp [hc]

/-- The normal form of a child, and something made of it. -/
theorem keeps_child_bind {α : Type} (hL : Arena.Upheld L) (hs : s.Lawful L)
    (hid : id < s.arena.next) (hm : s.arena.schema id = m) {c : SchemaId} (hc : c ∈ children m)
    {f : Option SchemaId → SessionWork α} {post : α → Session → Prop}
    (hnone : ∀ t, t.Lawful L → Stays s t → Keeps L (f none) t post)
    (hsome : ∀ form t, t.Lawful L → Stays s t → t.arena.IsForm form →
      t.arena.Refers id form → Keeps L (f (some form)) t post) :
    Keeps L (normalize calls c >>= f) s post := by
  have hlt : c < s.arena.next := by
    rw [← hm] at hc
    exact (hs.arena.proper id).links c (mem_links_of_children hc)
  refine .bind (keeps_normalize hL hs calls hlt) fun r t ht hst hr => ?_
  cases r with
  | none => exact hnone t ht hst
  | some form =>
      obtain ⟨-, hmt⟩ := hst.schema hid hm
      exact hsome form t ht hst (ht.arena.form c form hr) ⟨c, hmt ▸ hc, hr⟩

/-! ## Class names -/

/-- A schema may be given a class name as long as it has none. -/
theorem Lawful.nameClass (hs : s.Lawful L) (hnew : s.classNames.get? id = none)
    (name : TypeName) :
    let t := { s with classNames := s.classNames.insert id name }
    t.Lawful L ∧ Stays s t := by
  have hnames : ∀ i n, s.classNames.get? i = some n →
      (s.classNames.insert id name).get? i = some n := by
    intro i n hi
    have hne : i ≠ id := by
      rintro rfl
      rw [hnew] at hi
      cases hi
    rw [Dict.get?_insert_of_ne _ hne]
    exact hi
  refine ⟨⟨hs.arena, hs.pending, hs.loaded, ?_⟩,
    ⟨⟨.refl _, ?_, hnames, ?_, ?_⟩, fun _ hid _ => hid⟩, rfl⟩
  · exact hs.classed.mono (.refl _) rfl hnames rfl rfl
  · exact fun _ _ h => h
  · exact fun _ h => h
  · exact fun _ h => h

theorem keeps_allocateName (hs : s.Lawful L) (module : List String) (base : String) :
    Keeps L (allocateName naming module base) s fun _ t => t.classNames = s.classNames := by
  unfold allocateName
  refine .view_bind ?_
  refine .bind (keeps_modify hs rfl) fun _ t ht _ hg => .pure ht ?_
  rw [hg]

theorem keeps_className (hs : s.Lawful L) (id : SchemaId) :
    Keeps L (className naming id) s fun name t => t.classNames.get? id = some name := by
  unfold className
  refine .view_bind ?_
  split
  · next name hname => exact .pure hs hname
  · next hnew =>
      refine .view_bind (.view_bind ?_)
      refine .bind (keeps_allocateName hs _ _) fun name t ht _ hnames => ?_
      obtain ⟨hlawful, hstays⟩ := ht.nameClass (hnames ▸ hnew) name
      exact .modify_bind hlawful hstays (.pure hlawful (Dict.get?_insert_self _ _ _))

/-! ## Types -/

/-- A way of working out types that keeps sessions lawful and names only classes that the normal
    form leads to. -/
def Keeper (L : Arena.Law P) (typer : Typer) : Prop :=
  ∀ id s, s.Lawful L → s.arena.IsForm id → Keeps L (typer id) s fun u t => t.Covers id u

theorem covers_of_names_eq_nil {u : TypeExpr} (hu : u.names = []) : s.Covers id u := by
  intro n hn
  rw [hu] at hn
  cases hn

/-- A union names what its members name. -/
theorem covers_unionOf {us : List TypeExpr} (h : ∀ u ∈ us, s.Covers id u) :
    s.Covers id (.unionOf us) := by
  intro n hn
  obtain ⟨u, hu, hn⟩ := TypeExpr.names_unionOf hn
  exact h u hu n hn

theorem keeps_formTypes (htyper : Keeper L typer) (hs : s.Lawful L) {ids : List SchemaId}
    (hids : ∀ b ∈ ids, s.arena.IsForm b) :
    Keeps L (formTypes typer ids) s fun us t => ∀ u ∈ us, ∃ b ∈ ids, t.Covers b u := by
  induction ids generalizing s with
  | nil => exact .pure hs (by simp)
  | cons b ids ih =>
      unfold formTypes
      refine .bind (htyper b s hs (hids b (by simp))) fun u t ht hst hu => ?_
      have hrest : ∀ c ∈ ids, t.arena.IsForm c := fun c hc =>
        hst.arena.done c _ (hids c (List.mem_cons_of_mem b hc))
      refine .bind (ih ht hrest) fun us w hw htw hus => .pure hw fun v hv => ?_
      rcases List.mem_cons.1 hv with rfl | hv
      · exact ⟨b, by simp, hu.mono htw.toFollows⟩
      · obtain ⟨c, hc, hv⟩ := hus v hv
        exact ⟨c, List.mem_cons_of_mem b hc, hv⟩

theorem keeps_objectType (hL : Arena.Upheld L) (htyper : Keeper L typer) (hs : s.Lawful L)
    (hid : id < s.arena.next) (hm : s.arena.schema id = m)
    (hobject : m.effectiveKinds.object = true) (hany : m.anyOf.isEmpty = true) :
    Keeps L (objectType calls naming typer id m) s fun u t => t.Covers id u := by
  unfold objectType
  split
  · next hprops =>
      refine .bind (keeps_className hs id) fun name t ht hst hname => .pure ht fun n hn => ?_
      rw [TypeExpr.names, List.mem_singleton] at hn
      subst hn
      obtain ⟨-, hmt⟩ := hst.schema hid hm
      refine ⟨id, .refl, ?_, hname⟩
      rw [hmt, isClass, hobject, hany, hprops]
      rfl
  split
  · next values hvalues =>
      have hc : values ∈ children m := by simp [children, hvalues]
      refine keeps_child_bind hL hs hid hm hc ?_ ?_
      · exact fun t ht _ => .pure ht (covers_of_names_eq_nil rfl)
      · intro form t ht _ hform hrefers
        refine .bind (htyper form t ht hform) fun u w hw htw hu => .pure hw ?_
        exact hu.head (refers_of_grows htw.arena hrefers)
  · exact .pure hs (covers_of_names_eq_nil rfl)

theorem keeps_arrayType (hL : Arena.Upheld L) (htyper : Keeper L typer) (hs : s.Lawful L)
    (hid : id < s.arena.next) (hm : s.arena.schema id = m) :
    Keeps L (arrayType calls typer m) s fun u t => t.Covers id u := by
  unfold arrayType
  have hlist : ∀ t, t.Lawful L → Keeps L (do
      let items ← (pure TypeExpr.any : SessionWork TypeExpr)
      return TypeExpr.list items m.arrayConstraints) t fun u t => t.Covers id u :=
    fun t ht => .pure ht (covers_of_names_eq_nil rfl)
  dsimp only
  split
  · exact hlist s hs
  · next items hitems =>
      have hc : items ∈ children m := by simp [children, hitems]
      refine keeps_child_bind hL hs hid hm hc ?_ ?_
      · intro t ht _
        exact .view_bind (.bind (keeps_warn ht _) fun _ u hu _ _ => hlist u hu)
      · intro form t ht _ hform hrefers
        refine .bind (htyper form t ht hform) fun u w hw htw hu => .pure hw ?_
        exact hu.head (refers_of_grows htw.arena hrefers)

theorem keeps_kindType (hL : Arena.Upheld L) (htyper : Keeper L typer) (hs : s.Lawful L)
    (hid : id < s.arena.next) (hm : s.arena.schema id = m) (hany : m.anyOf.isEmpty = true)
    {k : Kind} (hk : m.effectiveKinds.contains k = true) :
    Keeps L (kindType calls naming typer id m m.effectiveKinds k) s
      fun r t => ∀ u ∈ r, t.Covers id u := by
  cases k with
  | object =>
      refine .bind (keeps_objectType hL htyper hs hid hm hk hany) fun u t ht _ hu => .pure ht ?_
      rintro _ ⟨⟩
      exact hu
  | array =>
      refine .bind (keeps_arrayType hL htyper hs hid hm) fun u t ht _ hu => .pure ht ?_
      rintro _ ⟨⟩
      exact hu
  | integer =>
      refine .pure hs fun u hu => ?_
      split at hu
      · cases hu
      · cases hu
        exact covers_of_names_eq_nil rfl
  | _ =>
      refine .pure hs ?_
      rintro _ ⟨⟩
      exact covers_of_names_eq_nil rfl

theorem keeps_kindTypes (hL : Arena.Upheld L) (htyper : Keeper L typer) (hs : s.Lawful L)
    (hid : id < s.arena.next) (hm : s.arena.schema id = m) (hany : m.anyOf.isEmpty = true)
    {ks : List Kind} (hks : ∀ k ∈ ks, m.effectiveKinds.contains k = true) :
    Keeps L (kindTypes calls naming typer id m m.effectiveKinds ks) s
      fun us t => ∀ u ∈ us, t.Covers id u := by
  induction ks generalizing s with
  | nil => exact .pure hs (by simp)
  | cons k ks ih =>
      unfold kindTypes
      refine .bind (keeps_kindType hL htyper hs hid hm hany (hks k (by simp))) ?_
      intro r t ht hst hr
      obtain ⟨hidt, hmt⟩ := hst.schema hid hm
      refine .bind (ih ht hidt hmt fun j hj => hks j (List.mem_cons_of_mem k hj)) ?_
      intro us w hw htw hus
      refine .pure hw fun u hu => ?_
      rcases List.mem_append.1 hu with hu | hu
      · exact (hr u (Option.mem_toList.1 hu)).mono htw.toFollows
      · exact hus u hu

theorem keeps_freshType (hL : Arena.Upheld L) (htyper : Keeper L typer) (hs : s.Lawful L)
    (hid : s.arena.IsForm id) :
    Keeps L (freshType calls naming typer id) s fun u t => t.Covers id u := by
  have hlt : id < s.arena.next := hs.arena.isForm_lt hid
  unfold freshType
  refine .view_bind ?_
  generalize hm : s.arena.schema id = m
  split
  · exact .pure hs (covers_of_names_eq_nil rfl)
  split
  · obtain ⟨-, hbranches⟩ := hs.arena.normal id hid
    rw [hm] at hbranches
    refine .bind (keeps_formTypes htyper hs hbranches) fun us t ht hst hus => .pure ht ?_
    refine covers_unionOf fun u hu => ?_
    obtain ⟨b, hb, hcovers⟩ := hus u hu
    obtain ⟨-, hmt⟩ := hst.schema hlt hm
    -- an alternative is its own normal form
    refine hcovers.head ⟨b, ?_, hst.arena.done b _ (hbranches b hb)⟩
    rw [hmt]
    simp [children, hb]
  · next hany =>
      dsimp only
      split
      · refine .pure hs (covers_unionOf fun u hu => covers_of_names_eq_nil ?_)
        rcases List.mem_append.1 hu with hu | hu
        · split at hu
          · cases hu
          · rw [List.mem_singleton.1 hu]
            rfl
        · split at hu
          · rw [List.mem_singleton.1 hu]
            rfl
          · cases hu
      · refine .bind (keeps_kindTypes hL htyper hs hlt hm (by simpa using hany) ?_) ?_
        · exact fun k hk => (List.mem_filter.1 hk).2
        · exact fun us t ht _ hus => .pure ht (covers_unionOf hus)

/-- Keeping a type that names only what its normal form leads to. -/
theorem Lawful.settleType (hs : s.Lawful L) {r : Except Failure TypeExpr}
    (hr : ∀ u, r = .ok u → s.Covers id u) :
    (settleType id r s).Lawful L ∧ Stays s (settleType id r s) := by
  cases r with
  | error e => exact hs.of_known rfl
  | ok u =>
      obtain ⟨ht, hst⟩ := hs.of_known (t := { s with typing := s.typing.dropLast }) rfl
      refine ⟨⟨ht.arena, ht.pending, ht.loaded, { ht.classed with types := fun i v hv => ?_ }⟩,
        ⟨⟨hst.arena, hst.loaded, hst.classNames, hst.collected, hst.classes⟩, hst.raw⟩, hst.same⟩
      change (s.types.insert id u).get? i = some v at hv
      rw [Dict.get?_insert] at hv
      split at hv
      · next hi =>
          cases hv
          rw [hi]
          exact hr u rfl
      · exact hs.classed.types i v hv

theorem keeper_formTypeWithin (hL : Arena.Upheld L) (n : Nat) :
    Keeper L (formTypeWithin calls naming n) := by
  induction n with
  | zero => exact fun _ _ hs _ => .exhausted hs
  | succ n ih =>
      intro id s hs hid
      unfold formTypeWithin formTypeStep
      refine .view_bind ?_
      split
      · next u hu => exact .pure hs (hs.classed.types id u hu)
      refine .view_bind ?_
      split
      · exact .view_bind (.fault hs)
      · refine .bind (keeps_modify hs rfl) fun _ t ht hst _ => ?_
        have hfresh : Keeps L (freshType calls naming (formTypeWithin calls naming n) id) t
            fun u w => w.Covers id u := keeps_freshType hL ih ht (hst.arena.done id _ hid)
        refine ends_thenAlways.2 (Ends.mono hfresh ?_ ?_)
        · rintro u w ⟨⟨hw, htw⟩, hu⟩
          obtain ⟨hlawful, hstays⟩ := hw.settleType (r := .ok u) (by rintro _ ⟨⟩; exact hu)
          exact ⟨⟨hlawful, trans_of Stays htw hstays⟩, hu.mono hstays.toFollows⟩
        · rintro e w ⟨hw, htw⟩
          obtain ⟨hlawful, hstays⟩ := hw.of_known (t := settleType id (.error e) w) rfl
          exact ⟨hlawful, trans_of Stays htw hstays⟩

/-- The type at a value position names only classes that the normal form there leads to. -/
theorem keeps_positionType (hL : Arena.Upheld L) (hs : s.Lawful L) (hid : id < s.arena.next)
    (required : Bool) :
    Keeps L (positionType calls naming id required) s fun r t => ∀ u ∈ r, ∃ form,
      t.arena.progress.get? id = some (.done (some form)) ∧ t.Covers form u := by
  unfold positionType
  refine .bind (keeps_normalize hL hs calls hid) fun r t ht _ hr => ?_
  cases r with
  | none => exact .pure ht (by rintro _ ⟨⟩)
  | some form =>
      refine .bind (keeper_formTypeWithin hL calls form t ht (ht.arena.form id form hr)) ?_
      intro u w hw htw hu
      refine .pure hw ?_
      rintro _ ⟨⟩
      refine ⟨form, htw.arena.done id _ hr, ?_⟩
      split
      · exact hu
      · rw [Covers, TypeExpr.names_optionalOf]
        exact hu

end ApiModel.Session
