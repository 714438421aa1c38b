/-
  ApiModel.Proofs.Schema.Session

  Sessions between requests. In a lawful session no schema is under normalization, what has been
  loaded is there as the document has it, and every class name in a type that has been worked out
  belongs to a class that can be reached from where the type comes from. Loading, normalizing and
  conjoining keep a session lawful and only add to it, whether they fail or not.
-/
import ApiModel.Proofs.Schema.Load
import ApiModel.Proofs.Schema.Solver
import ApiModel.Schema.Class

namespace ApiModel

/-- The type of the normal form `x` can refer to what the normal form `f` gives. -/
def Arena.Refers (a : Arena) (x f : SchemaId) : Prop :=
  ∃ c ∈ Session.children (a.schema x), a.progress.get? c = some (.done (some f))

namespace Session

open Work

variable {P : Json → Prop} {L : Arena.Law P} {s t : Session} {x f : SchemaId} {n : TypeName}

/-! ## Classes that types refer to -/

/-- The type of the normal form `x` can name the class `n`. -/
def Names (s : Session) (x : SchemaId) (n : TypeName) : Prop :=
  ∃ f, Relation.ReflTransGen s.arena.Refers x f ∧ isClass (s.arena.schema f) = true ∧
    s.classNames.get? f = some n

/-- Every class that a type refers to is one that the type of the normal form `x` can name. -/
def Covers (s : Session) (x : SchemaId) (u : TypeExpr) : Prop := ∀ n ∈ u.names, s.Names x n

/-- The class `n` is registered, or will be when everything collected has been followed. -/
def Promised (s : Session) (n : TypeName) : Prop :=
  s.classes.contains n = true ∨ ∃ x ∈ s.collected, s.Names x n

/-- What holds of the types and classes of a session. -/
structure Classed (s : Session) : Prop where
  types : ∀ id u, s.types.get? id = some u → s.Covers id u
  collected : ∀ id ∈ s.collected, id < s.arena.next
  keys : s.classes.keys.Nodup
  named : ∀ n c, s.classes.get? n = some c → c.name = n
  fields : ∀ n c, s.classes.get? n = some c → ∀ f ∈ c.fields, ∀ m ∈ f.type.names, s.Promised m

/-- What holds of a session between requests. -/
structure Lawful {P : Json → Prop} (L : Arena.Law P) (s : Session) : Prop where
  arena : s.arena.Lawful L
  pending : s.arena.pending = []
  loaded : ∀ p id, s.loaded.get? p = some id → id < s.arena.next ∧ s.arena.Raw id
  classed : s.Classed

/-- A schema that loading has read from the document. -/
def Loaded (s : Session) (id : SchemaId) : Prop :=
  ∃ p root, s.loaded.get? p = some root ∧ Relation.ReflTransGen s.arena.Link root id

/-- What is loaded exists, and it is as the document has it. -/
theorem Lawful.raw_of_loaded (hs : s.Lawful L) {id : SchemaId} (h : s.Loaded id) :
    id < s.arena.next ∧ s.arena.Raw id := by
  obtain ⟨p, root, hroot, hreach⟩ := h
  obtain ⟨hlt, hraw⟩ := hs.loaded p root hroot
  exact ⟨hs.arena.reach_lt hlt hreach, hs.arena.raw_reach hraw hreach⟩

/-- The session `t` has all that `s` has: the schemas, the loaded pointers, the answers, the names
    given out and the classes. -/
structure Follows (s t : Session) : Prop where
  arena : s.arena.Grows t.arena
  loaded : ∀ p id, s.loaded.get? p = some id → t.loaded.get? p = some id
  classNames : ∀ id n, s.classNames.get? id = some n → t.classNames.get? id = some n
  collected : ∀ id ∈ s.collected, id ∈ t.collected
  classes : ∀ n, s.classes.contains n = true → t.classes.contains n = true

/-- The session `t` has all that `s` has, and nothing more of the document. -/
structure Derives (s t : Session) : Prop extends Follows s t where
  raw : ∀ id, id < t.arena.next → t.arena.Raw id → id < s.arena.next

/-- The session `t` has all that `s` has, nothing more of the document, and no more has been
    collected. -/
structure Stays (s t : Session) : Prop extends Derives s t where
  same : t.collected = s.collected

instance : IsPreorder Session Follows where
  refl s := ⟨.refl s.arena, fun _ _ h => h, fun _ _ h => h, fun _ h => h, fun _ h => h⟩
  trans _ _ _ h h' := ⟨h.arena.trans h'.arena, fun p id hid => h'.loaded p id (h.loaded p id hid),
    fun id n hn => h'.classNames id n (h.classNames id n hn),
    fun id hid => h'.collected id (h.collected id hid),
    fun n hn => h'.classes n (h.classes n hn)⟩

instance : IsPreorder Session Derives where
  refl s := { refl_of Follows s with raw := fun _ hid _ => hid }
  trans _ _ _ h h' :=
    { trans_of Follows h.toFollows h'.toFollows with
      raw := fun id hid hraw =>
        have hid := h'.raw id hid hraw
        h.raw id hid ((h'.arena.raw_iff hid).1 hraw) }

instance : IsPreorder Session Stays where
  refl s := { refl_of Derives s with same := rfl }
  trans _ _ _ h h' :=
    { trans_of Derives h.toDerives h'.toDerives with same := h'.same.trans h.same }

/-- `x`, started in `s`, keeps the session lawful, adds to it, but nothing of the document, and
    collects nothing. -/
abbrev Keeps {α : Type} (L : Arena.Law P) (x : SessionWork α) (s : Session)
    (post : α → Session → Prop) : Prop :=
  Yields (Lawful L) Stays x s post

/-- `x`, started in `s`, keeps the session lawful and adds to it, but nothing of the document. -/
abbrev Works {α : Type} (L : Arena.Law P) (x : SessionWork α) (s : Session)
    (post : α → Session → Prop) : Prop :=
  Yields (Lawful L) Derives x s post

/-- `x`, started in `s`, keeps the session lawful and only adds to it. -/
abbrev Serves {α : Type} (L : Arena.Law P) (x : SessionWork α) (s : Session)
    (post : α → Session → Prop) : Prop :=
  Yields (Lawful L) Follows x s post

theorem Keeps.works {α : Type} {x : SessionWork α} {post : α → Session → Prop}
    (h : Keeps L x s post) : Works L x s fun a t => Stays s t ∧ post a t :=
  Yields.weaken (h.mono fun _ _ _ hst hpost => ⟨hst, hpost⟩) fun _ _ hst => hst.toDerives

theorem Works.serves {α : Type} {x : SessionWork α} {post : α → Session → Prop}
    (h : Works L x s post) : Serves L x s post :=
  Yields.weaken h fun _ _ hst => hst.toFollows

theorem lawful_empty (L : Arena.Law P) : Session.empty.Lawful L where
  arena := { Arena.WellFormed.empty P with
    forms := fun _ _ h => by simp [Session.empty, Arena.empty] at h
    boths := fun _ _ _ _ h => by simp [Session.empty, Arena.empty] at h }
  pending := rfl
  loaded _ _ h := by simp [Session.empty] at h
  classed :=
    { types := fun _ _ h => by simp [Session.empty] at h
      collected := fun _ h => by simp [Session.empty] at h
      keys := List.nodup_nil
      named := fun _ _ h => by simp [Session.empty] at h
      fields := fun _ _ h => by simp [Session.empty] at h }

/-- What is referred to from a number is so from a schema that exists. -/
theorem lt_of_refers {a : Arena} (h : a.Refers x f) : x < a.next := by
  refine Nat.lt_of_not_le fun hle => ?_
  obtain ⟨c, hc, -⟩ := h
  rw [a.schema_of_le hle] at hc
  simp [children, Schema.blank, Dict.values, Dict.empty] at hc

theorem lt_of_isClass {a : Arena} (h : isClass (a.schema f) = true) : f < a.next := by
  refine Nat.lt_of_not_le fun hle => ?_
  rw [a.schema_of_le hle] at h
  simp [isClass, Schema.blank, Dict.isEmpty, Dict.empty] at h

theorem refers_of_grows {a b : Arena} (h : a.Grows b) (hxf : a.Refers x f) : b.Refers x f := by
  have hlt := lt_of_refers hxf
  obtain ⟨c, hc, hform⟩ := hxf
  rw [← h.schema x hlt] at hc
  exact ⟨c, hc, h.done c _ hform⟩

/-- Names that types can have stay so. -/
theorem Names.mono (ha : s.arena.Grows t.arena)
    (hnames : ∀ id n, s.classNames.get? id = some n → t.classNames.get? id = some n)
    (h : s.Names x n) : t.Names x n := by
  obtain ⟨f, hreach, hclass, hname⟩ := h
  refine ⟨f, Relation.ReflTransGen.mono (fun _ _ => refers_of_grows ha) _ _ hreach, ?_,
    hnames f n hname⟩
  rw [ha.schema f (lt_of_isClass hclass)]
  exact hclass

theorem Covers.mono {u : TypeExpr} (h : Follows s t) (hu : s.Covers x u) : t.Covers x u :=
  fun n hn => (hu n hn).mono h.arena h.classNames

theorem Promised.mono (h : Follows s t) (hn : s.Promised n) : t.Promised n := by
  rcases hn with hn | ⟨x, hx, hn⟩
  · exact .inl (h.classes n hn)
  · exact .inr ⟨x, h.collected x hx, hn.mono h.arena h.classNames⟩

theorem Names.head (h : s.arena.Refers x f) (hn : s.Names f n) : s.Names x n := by
  obtain ⟨g, hreach, hclass, hname⟩ := hn
  exact ⟨g, .head h hreach, hclass, hname⟩

theorem Covers.head {u : TypeExpr} (h : s.arena.Refers x f) (hu : s.Covers f u) : s.Covers x u :=
  fun n hn => (hu n hn).head h

/-- A session with a grown arena, further class names, and the same types and classes. -/
theorem Classed.mono (h : s.Classed) (ha : s.arena.Grows t.arena) (htypes : t.types = s.types)
    (hnames : ∀ id n, s.classNames.get? id = some n → t.classNames.get? id = some n)
    (hcollected : t.collected = s.collected) (hclasses : t.classes = s.classes) : t.Classed := by
  have hN : ∀ {id n}, s.Names id n → t.Names id n := fun hn => hn.mono ha hnames
  refine ⟨?_, ?_, ?_, ?_, ?_⟩
  · rw [htypes]
    exact fun id u hu n hn => hN (h.types id u hu n hn)
  · rw [hcollected]
    exact fun id hid => Nat.lt_of_lt_of_le (h.collected id hid) ha.next
  · rw [hclasses]
    exact h.keys
  · rw [hclasses]
    exact h.named
  · unfold Promised
    rw [hclasses, hcollected]
    intro m c hc f hf n hn
    rcases h.fields m c hc f hf n hn with hn | ⟨x, hx, hn⟩
    · exact .inl hn
    · exact .inr ⟨x, hx, hN hn⟩

/-- What a session knows, apart from paths, warnings and hints for names. -/
def known (s : Session) : Session :=
  { s with typing := [], takenNames := [], suggestions := .empty, warnings := [] }

/-- A session that knows the same is as lawful. -/
theorem Lawful.of_known (h : s.Lawful L) (hst : t.known = s.known) : t.Lawful L ∧ Stays s t := by
  have harena : t.known.arena = s.known.arena := congrArg Session.arena hst
  have hloaded : t.known.loaded = s.known.loaded := congrArg Session.loaded hst
  have htypes : t.known.types = s.known.types := congrArg Session.types hst
  have hnames : t.known.classNames = s.known.classNames := congrArg Session.classNames hst
  have hcollected : t.known.collected = s.known.collected := congrArg Session.collected hst
  have hclasses : t.known.classes = s.known.classes := congrArg Session.classes hst
  dsimp only [known] at harena hloaded htypes hnames hcollected hclasses
  have hgrows : s.arena.Grows t.arena := harena ▸ .refl s.arena
  refine ⟨⟨harena ▸ h.arena, harena ▸ h.pending, ?_, ?_⟩, ⟨⟨hgrows, ?_, ?_, ?_, ?_⟩, ?_⟩,
    hcollected⟩
  · rw [harena, hloaded]
    exact h.loaded
  · exact h.classed.mono hgrows htypes (fun _ _ hid => hnames ▸ hid) hcollected hclasses
  · rw [hloaded]
    exact fun _ _ hid => hid
  · rw [hnames]
    exact fun _ _ hid => hid
  · rw [hcollected]
    exact fun _ hid => hid
  · rw [hclasses]
    exact fun _ hn => hn
  · rw [harena]
    exact fun _ hid _ => hid

/-- A change of what a session does not count as known. -/
theorem keeps_modify (hs : s.Lawful L) {g : Session → Session} (hg : (g s).known = s.known) :
    Keeps L (modify g) s fun _ t => t = g s :=
  ⟨hs.of_known hg, rfl⟩

/-! ## The algebra -/

/-- Work on the arena that leaves nothing under normalization. -/
theorem keeps_onArena {α : Type} {x : ArenaWork α} {Q : Pointer → Prop}
    {post : α → Arena → Prop} (hs : s.Lawful L) (hx : Arena.Runs L Q x s.arena post) :
    Keeps L (onArena x) s fun r t => post r t.arena := by
  have hstep : ∀ a : Arena, a.Lawful L → Arena.Confined Q s.arena a →
      Lawful L { s with arena := a } ∧ Stays s { s with arena := a } := by
    intro a ha hsa
    refine ⟨⟨ha, hsa.pending.trans hs.pending, fun p id hid => ?_,
      hs.classed.mono hsa.toGrows rfl (fun _ _ h => h) rfl rfl⟩,
      ⟨⟨hsa.toGrows, fun _ _ h => h, fun _ _ h => h, fun _ h => h, fun _ h => h⟩, hsa.raw⟩, rfl⟩
    obtain ⟨hlt, hform, hops⟩ := hs.loaded p id hid
    refine ⟨Nat.lt_of_lt_of_le hlt hsa.next, fun h => hform (hsa.isForm id hlt h), ?_⟩
    exact (hsa.operands id hlt).trans hops
  refine ends_focus.2 (Ends.mono hx ?_ ?_)
  · rintro r a ⟨⟨ha, hsa⟩, hr⟩
    exact ⟨hstep a ha hsa, hr⟩
  · rintro e a ⟨ha, hsa⟩
    exact hstep a ha hsa

theorem keeps_normalize (hL : Arena.Upheld L) (hs : s.Lawful L) (calls : Nat) {id : SchemaId}
    (hid : id < s.arena.next) :
    Keeps L (normalize calls id) s fun r t => t.arena.progress.get? id = some (.done r) :=
  keeps_onArena hs (Arena.sound_solve hL calls (.normalize id) s.arena hs.arena hid)

theorem keeps_conjoinAt (hL : Arena.Upheld L) (hs : s.Lawful L) (calls : Nat)
    {x y : SchemaId} (hx : x < s.arena.next) (hy : y < s.arena.next) (place : Pointer) :
    Keeps L (conjoinAt calls x y place) s fun r t => Arena.Joined L t.arena x y r :=
  keeps_onArena hs (Arena.sound_solve hL calls (.conjoin x y place) s.arena hs.arena ⟨hx, hy⟩)

theorem keeps_conjoin (hL : Arena.Upheld L) (hs : s.Lawful L) (calls : Nat) {x y : SchemaId}
    (hx : x < s.arena.next) (hy : y < s.arena.next) :
    Keeps L (conjoin calls x y) s fun r t => Arena.Joined L t.arena x y r :=
  .view_bind (keeps_conjoinAt hL hs calls hx hy _)

/-! ## Loading -/

/-- More schemas, which refer to schemas of the document only, keep an arena lawful. -/
theorem lawful_of_schemas {a b : Arena} {schemas : Array Schema} (ha : a.Lawful L)
    (hb : b = { a with schemas := schemas }) (hnext : a.next ≤ b.next)
    (hs : ∀ id, id < a.next → b.schema id = a.schema id)
    (hproper : ∀ id, (b.schema id).Proper P b.next)
    (hraw : ∀ id, a.next ≤ id → ∀ c ∈ (b.schema id).links, a.Raw c) :
    b.Lawful L ∧ a.Grows b := by
  have hprogress : b.progress = a.progress := by rw [hb]
  have hpending : b.pending = a.pending := by rw [hb]
  have hconj : b.conjunctions = a.conjunctions := by rw [hb]
  have hdeferred : b.deferred = a.deferred := by rw [hb]
  have hops : b.operands = a.operands := by rw [hb]
  have hform : ∀ n, b.IsForm n ↔ a.IsForm n := fun n => by rw [Arena.IsForm, hprogress]; rfl
  have hknown : ∀ {id p}, a.progress.get? id = some p → b.schema id = a.schema id :=
    fun hp => hs _ (ha.known _ _ hp)
  have hwf : b.WellFormed P := by
    refine ⟨hproper, ?known, ?pending, ?form, ?normal, ?plain, ?memo, ?deferred, ?operands, ?flat,
      ?raw, ?older⟩
    case known => exact fun id p hp => Nat.lt_of_lt_of_le (ha.known id p (hprogress ▸ hp)) hnext
    case pending => rw [hprogress, hpending]; exact ha.pending
    case form => exact fun id n hp => (hform n).2 (ha.form id n (hprogress ▸ hp))
    case normal =>
      intro n hn
      have hn := (hform n).1 hn
      obtain ⟨hnormal, hbranch⟩ := ha.normal n hn
      rw [hknown hn]
      exact ⟨hnormal, fun c hc => (hform c).2 (hbranch c hc)⟩
    case plain =>
      intro id n hp
      rw [hprogress] at hp
      rw [hknown hp, hknown (ha.form id n hp)]
      exact ha.plain id n hp
    case memo =>
      intro x y p r hr
      rw [hconj] at hr
      obtain ⟨hx, hy, hres⟩ := ha.memo x y p r hr
      exact ⟨(hform x).2 hx, (hform y).2 hy, fun n hn => (hform n).2 (hres n hn)⟩
    case deferred => rw [hdeferred, hops]; exact ha.deferred
    case operands =>
      intro id os ho
      rw [hops] at ho
      obtain ⟨hid, p, hp⟩ := ha.operands id os ho
      exact ⟨Nat.lt_of_lt_of_le hid hnext, p, (hs id hid).trans hp⟩
    case flat => rw [hops]; exact ha.flat
    case raw =>
      rintro x y ⟨hx, hxops⟩ hxy
      rw [hform] at hx
      rw [hops] at hxops
      have hy : a.Raw y := by
        by_cases hlt : x < a.next
        · rw [Arena.Link, hs x hlt] at hxy
          exact ha.raw x y ⟨hx, hxops⟩ hxy
        · exact hraw x (Nat.le_of_not_lt hlt) y hxy
      exact ⟨fun h => hy.1 ((hform y).1 h), hops ▸ hy.2⟩
    -- what is new is as the document has it
    case older =>
      intro x y hx hxy
      rw [Arena.Raw, hform, hops] at hx
      have hlt : x < a.next := Nat.lt_of_not_le fun hle => hx (ha.raw_of_le hle)
      rw [Arena.Link, hs x hlt] at hxy
      exact ha.older x y hx hxy
  have hgrows : a.Grows b := by
    refine .of_schemas ha.toWellFormed hnext hs ?_ (fun id _ => (hform id).1) ?_ ?_
    · rw [hprogress]; exact fun _ _ h => h
    · rw [hops]; exact fun _ _ => rfl
    · rw [hconj]; exact fun _ _ _ _ _ _ h => h
  refine ⟨ha.extend hwf hgrows ?_ ?_, hgrows⟩
  · rw [hprogress]; exact fun _ _ h => .inl h
  · rw [hconj]; exact fun _ _ _ _ h => .inl h

/-- The schemas that a load may refer to: new ones, and those that were raw before. -/
def Loadable (s : Session) (id : SchemaId) : Prop :=
  s.arena.next ≤ id ∨ s.arena.Raw id

theorem Lawful.raw_of_loadable (hs : s.Lawful L) {id : SchemaId} (h : Loadable s id) :
    s.arena.Raw id :=
  h.elim hs.arena.raw_of_le fun h => h

theorem Lawful.readable (hs : s.Lawful L) : Readable P (Loadable s) s.arena.next s where
  proper := hs.arena.proper
  loaded p id h := ⟨(hs.loaded p id h).1, .inr (hs.loaded p id h).2⟩
  links id hid c hc := by
    rw [s.arena.schema_of_le hid, Schema.links_blank] at hc
    cases hc

/-- Adding what a load adds keeps a session lawful. -/
theorem Lawful.of_loads (hs : s.Lawful L) (ht : Readable P (Loadable s) s.arena.next t)
    (h : Loads s.arena.next s t) : t.Lawful L ∧ Follows s t ∧ t.collected = s.collected := by
  obtain ⟨⟨schemas, loaded, warnings, hrest⟩, hnext, hschema, hloaded⟩ := h
  have harena : t.arena = { s.arena with schemas := schemas } := by rw [hrest]
  obtain ⟨ha, hgrows⟩ := lawful_of_schemas hs.arena harena hnext hschema ht.proper
    fun id hid c hc => hs.raw_of_loadable (ht.links id hid c hc)
  have htypes : t.types = s.types := by rw [hrest]
  have hnames : t.classNames = s.classNames := by rw [hrest]
  have hcollected : t.collected = s.collected := by rw [hrest]
  have hclasses : t.classes = s.classes := by rw [hrest]
  refine ⟨⟨ha, ?_, fun p id hid => ?_,
    hs.classed.mono hgrows htypes (fun _ _ hid => hnames ▸ hid) hcollected hclasses⟩,
    ⟨hgrows, hloaded, ?_, ?_, ?_⟩, hcollected⟩
  · rw [harena]
    exact hs.pending
  · obtain ⟨hlt, hK⟩ := ht.loaded p id hid
    obtain ⟨hform, hops⟩ := hs.raw_of_loadable hK
    refine ⟨hlt, ?_, ?_⟩
    · rw [Arena.IsForm, harena]
      exact hform
    · rw [harena]
      exact hops
  · rw [hnames]
    exact fun _ _ hid => hid
  · rw [hcollected]
    exact fun _ hid => hid
  · rw [hclasses]
    exact fun _ hn => hn

theorem serves_load (hs : s.Lawful L) (hP : Hereditary P) {document : Json} (hd : P document)
    (p : Pointer) :
    Serves L (load document p) s fun id t => t.collected = s.collected ∧
      id < t.arena.next ∧ t.loaded.get? p = some id := by
  have hload := reader_load (K := Loadable s) (n := s.arena.next) (fun _ h => .inl h) hP hd p s
    hs.readable (Nat.le_refl _)
  refine Ends.mono hload ?_ ?_
  · rintro id t ⟨⟨ht, hst⟩, hid, hp⟩
    obtain ⟨hlawful, hfollows, hcollected⟩ := hs.of_loads ht hst
    exact ⟨⟨hlawful, hfollows⟩, hcollected, hid.1, hp⟩
  · rintro e t ⟨ht, hst⟩
    obtain ⟨hlawful, hfollows, -⟩ := hs.of_loads ht hst
    exact ⟨hlawful, hfollows⟩

end Session

end ApiModel
