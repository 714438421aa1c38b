/-
  ApiModel.Proofs.Schema.Class

  Classes and their collection. A class names, in its fields, only what its normal form leads to. The
  collection keeps a frontier: whatever has been collected is explored, and what it refers to has
  been collected or waits on the stack. When the stack is empty, what has been collected is closed,
  and every class that a type can name is registered.
-/
import ApiModel.Proofs.Schema.Typing

namespace ApiModel.Session

open Work

variable {P : Json → Prop} {L : Arena.Law P} {s t : Session} {naming : Naming} {calls : Nat}
  {id x f : SchemaId} {m : Schema} {n : TypeName} {stack : List SchemaId}

/-! ## Frontiers -/

/-- The children of a normal form have been looked up, and its class is registered if it gives
    one. -/
structure Explored (s : Session) (x : SchemaId) : Prop where
  children : ∀ c ∈ Session.children (s.arena.schema x), ∃ r,
    s.arena.progress.get? c = some (.done r)
  registered : isClass (s.arena.schema x) = true → ∃ n, s.classNames.get? x = some n ∧
    s.classes.contains n = true

/-- What has been collected is explored, and what it refers to has been collected or waits on the
    stack. -/
def Frontier (s : Session) (stack : List SchemaId) : Prop :=
  ∀ x ∈ s.collected, s.Explored x ∧ ∀ f, s.arena.Refers x f → f ∈ s.collected ∨ f ∈ stack

/-- What an explored normal form refers to is known once and for all. -/
theorem Explored.refers (h : s.Explored x) (hx : x < s.arena.next) (hst : Follows s t)
    (hxf : t.arena.Refers x f) : s.arena.Refers x f := by
  obtain ⟨c, hc, hform⟩ := hxf
  rw [hst.arena.schema x hx] at hc
  obtain ⟨r, hr⟩ := h.children c hc
  have hr' := hst.arena.done c r hr
  rw [hform] at hr'
  cases hr'
  exact ⟨c, hc, hr⟩

theorem Explored.mono (h : s.Explored x) (hx : x < s.arena.next) (hst : Follows s t) :
    t.Explored x := by
  have hschema := hst.arena.schema x hx
  refine ⟨fun c hc => ?_, fun hclass => ?_⟩
  · rw [hschema] at hc
    obtain ⟨r, hr⟩ := h.children c hc
    exact ⟨r, hst.arena.done c r hr⟩
  · rw [hschema] at hclass
    obtain ⟨n, hname, hn⟩ := h.registered hclass
    exact ⟨n, hst.classNames x n hname, hst.classes n hn⟩

theorem Frontier.mono (h : s.Frontier stack) (hs : s.Lawful L) (hst : Follows s t)
    (hsame : t.collected = s.collected) : t.Frontier stack := by
  intro x hx
  rw [hsame] at hx ⊢
  have hlt : x < s.arena.next := hs.classed.collected x hx
  obtain ⟨hexplored, hrefers⟩ := h x hx
  refine ⟨hexplored.mono hlt hst, fun f hf => ?_⟩
  exact hrefers f (hexplored.refers hlt hst hf)

/-- Everything that leads on from what has been collected has been collected. -/
theorem Frontier.reach (h : s.Frontier []) (hx : x ∈ s.collected)
    (hxf : Relation.ReflTransGen s.arena.Refers x f) : f ∈ s.collected := by
  induction hxf with
  | refl => exact hx
  | tail _ hlink ih =>
      rcases (h _ ih).2 _ hlink with hf | hf
      · exact hf
      · cases hf

/-- Every class that something collected can name is registered. -/
theorem Frontier.contains (h : s.Frontier []) (hx : x ∈ s.collected) (hn : s.Names x n) :
    s.classes.contains n = true := by
  obtain ⟨f, hreach, hclass, hname⟩ := hn
  obtain ⟨n', hname', hn'⟩ := (h f (h.reach hx hreach)).1.registered hclass
  rw [hname] at hname'
  cases hname'
  exact hn'

theorem Frontier.of_promised (h : s.Frontier []) (hn : s.Promised n) :
    s.classes.contains n = true := by
  rcases hn with hn | ⟨x, hx, hn⟩
  · exact hn
  · exact h.contains hx hn

/-! ## The table of classes -/

/-- Another table of classes, which has all classes of the old one and names nothing that is not
    promised. -/
theorem Lawful.withClasses (hs : s.Lawful L) {classes : Dict TypeName Client.Class}
    (hkeys : classes.keys.Nodup)
    (hcontains : ∀ n, s.classes.contains n = true → classes.contains n = true)
    (hget : ∀ n c, classes.get? n = some c → s.classes.get? n = some c ∨
      c.name = n ∧ ∀ f ∈ c.fields, ∀ m ∈ f.type.names, s.Promised m) :
    let t := { s with classes := classes }
    t.Lawful L ∧ Stays s t := by
  have hfollows : Follows s { s with classes := classes } :=
    ⟨.refl _, fun _ _ h => h, fun _ _ h => h, fun _ h => h, hcontains⟩
  -- a class of the table is an old one, or its fields name what is promised
  have hclassed : Classed { s with classes := classes } := by
    refine ⟨hs.classed.types, hs.classed.collected, hkeys, fun n c hc => ?_, fun n c hc => ?_⟩
    · rcases hget n c hc with hold | ⟨hname, -⟩
      · exact hs.classed.named n c hold
      · exact hname
    · rcases hget n c hc with hold | ⟨-, hfields⟩
      · exact fun f hf m hm => (hs.classed.fields n c hold f hf m hm).mono hfollows
      · exact fun f hf m hm => (hfields f hf m hm).mono hfollows
  exact ⟨⟨hs.arena, hs.pending, hs.loaded, hclassed⟩, ⟨hfollows, fun _ hid _ => hid⟩, rfl⟩

theorem keeps_register (hs : s.Lawful L) {c : Client.Class}
    (hc : ∀ f ∈ c.fields, ∀ n ∈ f.type.names, s.Promised n) :
    Keeps L (register c) s fun _ t => t.classes.contains c.name = true := by
  have hput := hs.withClasses (Dict.nodup_keys_insert hs.classed.keys c.name c)
    (fun n hn => ?_) fun n d hd => ?_
  · refine ⟨hput, ?_⟩
    exact Dict.contains_of_get? (Dict.get?_insert_self _ _ c)
  · rw [Dict.contains, Dict.get?_insert]
    split
    · rfl
    · exact hn
  · rw [Dict.get?_insert] at hd
    split at hd
    · next hname =>
        cases hd
        exact .inr ⟨hname.symm, hc⟩
    · exact .inl hd

theorem keeps_registerNew (hs : s.Lawful L) {c : Client.Class}
    (hc : ∀ f ∈ c.fields, ∀ n ∈ f.type.names, s.Promised n) :
    Keeps L (registerNew c) s fun _ t => t.classes.contains c.name = true := by
  -- a class that is there already is left alone
  by_cases hknown : s.classes.contains c.name = true
  · have hsame : { s with classes := s.classes.insertIfNew c.name c } = s := by
      rw [Dict.insertIfNew, if_pos hknown]
    refine (keeps_modify hs (congrArg known hsame)).mono fun _ t _ _ ht => ?_
    rw [ht, hsame]
    exact hknown
  · have hinsert : s.classes.insertIfNew c.name c = s.classes.insert c.name c := if_neg hknown
    have hnew : registerNew c s = register c s := by
      show (Except.ok (), { s with classes := s.classes.insertIfNew c.name c }) = _
      rw [hinsert]
      rfl
    unfold Keeps Yields Ends run
    rw [hnew]
    exact keeps_register hs hc

/-! ## Classes of normal forms -/

theorem keeps_fieldsOf (hL : Arena.Upheld L) (hs : s.Lawful L) (hid : id < s.arena.next)
    (hm : s.arena.schema id = m) (required : SortedSet String)
    {es : List (String × SchemaId)} (hes : ∀ e ∈ es, e.2 ∈ children m)
    {fields : List Client.Field} (hfields : ∀ f ∈ fields, s.Covers id f.type) :
    Keeps L (fieldsOf calls naming required es fields) s
      fun fields t => ∀ f ∈ fields, t.Covers id f.type := by
  -- the arena grows from one property to the next, so `id` is looked up anew at each
  induction es generalizing s fields with
  | nil => exact .pure hs hfields
  | cons e es ih =>
      obtain ⟨wireName, child⟩ := e
      have hrest : ∀ e ∈ es, e.2 ∈ children m := fun e he => hes e (List.mem_cons_of_mem _ he)
      unfold fieldsOf
      refine keeps_child_bind hL hs hid hm (hes _ List.mem_cons_self) ?_ ?_
      -- a property that matches nothing has no field
      · intro t ht hst
        refine .view_bind (.bind (keeps_warn ht _) fun _ u hu htu _ => ?_)
        have hsu := trans_of Follows hst.toFollows htu.toFollows
        obtain ⟨hidu, hmu⟩ := hsu.schema hid hm
        exact ih hu hidu hmu hrest fun f hf => (hfields f hf).mono hsu
      · intro form t ht hst hform hrefers
        refine .bind (keeper_formTypeWithin hL calls form t ht hform) fun type u hu htu htype => ?_
        refine .view_bind (.view_bind ?_)
        have hsu := trans_of Follows hst.toFollows htu.toFollows
        obtain ⟨hidu, hmu⟩ := hsu.schema hid hm
        refine ih hu hidu hmu hrest fun f hf => ?_
        rcases List.mem_append.1 hf with hf | hf
        · exact (hfields f hf).mono hsu
        · rw [List.mem_singleton.1 hf]
          have hcovers : u.Covers id type := htype.head (refers_of_grows htu.arena hrefers)
          -- an optional field names the same classes
          unfold fieldOf
          dsimp only
          split
          · exact hcovers
          · rw [Covers, TypeExpr.names_optionalOf]
            exact hcovers

/-- A class goes by the name of its normal form, and its fields name only what that leads to. -/
theorem keeps_asType (hL : Arena.Upheld L) (hs : s.Lawful L) (hid : id < s.arena.next) :
    Keeps L (asType calls naming id) s fun r t =>
      (r = none → isClass (s.arena.schema id) = false) ∧
      ∀ c ∈ r, t.classNames.get? id = some c.name ∧ ∀ f ∈ c.fields, t.Covers id f.type := by
  unfold asType
  refine .view_bind ?_
  generalize hm : s.arena.schema id = m
  split
  · next hclass => exact .pure hs ⟨fun _ => by simpa using hclass, by rintro _ ⟨⟩⟩
  · refine .bind (keeps_className hs id) fun name t ht hst hname => ?_
    obtain ⟨hidt, hmt⟩ := hst.schema hid hm
    refine .bind (keeps_fieldsOf hL ht hidt hmt m.required ?_ (by simp)) ?_
    · rintro ⟨k, c⟩ he
      have hc : c ∈ m.properties.values := List.mem_map.2 ⟨(k, c), he, rfl⟩
      simp [children, hc]
    · intro fields u hu htu hfields
      refine .pure hu ⟨by simp, ?_⟩
      rintro _ ⟨⟩
      exact ⟨htu.classNames id name hname, hfields⟩

theorem keeps_normalizeAll (hL : Arena.Upheld L) (hs : s.Lawful L) {ids : List SchemaId}
    (hids : ∀ c ∈ ids, c < s.arena.next) :
    Keeps L (normalizeAll calls ids) s fun forms t =>
      (∀ f ∈ forms, ∃ c ∈ ids, t.arena.progress.get? c = some (.done (some f))) ∧
      ∀ c ∈ ids, ∃ r, t.arena.progress.get? c = some (.done r) ∧ ∀ f ∈ r, f ∈ forms := by
  induction ids generalizing s with
  | nil => exact .pure hs (by simp)
  | cons c ids ih =>
      unfold normalizeAll
      refine .bind (keeps_normalize hL hs calls (hids c (by simp))) fun r t ht hst hr => ?_
      have hrest : ∀ c ∈ ids, c < t.arena.next := fun d hd =>
        Nat.lt_of_lt_of_le (hids d (List.mem_cons_of_mem c hd)) hst.arena.next
      refine .bind (ih ht hrest) fun forms u hu htu hforms => .pure hu ⟨fun f hf => ?_, ?_⟩
      -- the forms found are those of the first child and those of the rest
      · rcases List.mem_append.1 hf with hf | hf
        · rw [Option.mem_toList] at hf
          subst hf
          exact ⟨c, by simp, htu.arena.done c _ hr⟩
        · obtain ⟨d, hd, hform⟩ := hforms.1 f hf
          exact ⟨d, List.mem_cons_of_mem c hd, hform⟩
      · intro d hd
        rcases List.mem_cons.1 hd with rfl | hd
        · exact ⟨r, htu.arena.done d r hr, fun f hf => by simp [Option.mem_def.1 hf]⟩
        · obtain ⟨q, hq, hmem⟩ := hforms.2 d hd
          exact ⟨q, hq, fun f hf => List.mem_append_right _ (hmem f hf)⟩

/-- The dependencies of a schema are the normal forms that it refers to. -/
theorem keeps_dependencies (hL : Arena.Upheld L) (hs : s.Lawful L) (hid : id < s.arena.next) :
    Keeps L (dependencies calls id) s fun forms t => (∀ f ∈ forms, t.arena.Refers id f) ∧
      ∀ c ∈ children (s.arena.schema id), ∃ r, t.arena.progress.get? c = some (.done r) ∧
        ∀ f ∈ r, f ∈ forms := by
  refine .view_bind ((keeps_normalizeAll hL hs fun _ hc => ?_).mono fun forms t _ hst h => ?_)
  · exact (hs.arena.proper id).links _ (mem_links_of_children hc)
  · refine ⟨fun f hf => ?_, h.2⟩
    obtain ⟨c, hc, hform⟩ := h.1 f hf
    rw [← hst.arena.schema id hid] at hc
    exact ⟨c, hc, hform⟩

/-- What is referred to is a normal form. -/
theorem Lawful.isForm_of_refers (hs : s.Lawful L) (h : s.arena.Refers x f) : s.arena.IsForm f := by
  obtain ⟨c, -, hform⟩ := h
  exact hs.arena.form c f hform

/-! ## Collection -/

/-- A normal form may be marked as collected. -/
theorem Lawful.collect (hs : s.Lawful L) (hid : id < s.arena.next) :
    let t := { s with collected := s.collected ++ [id] }
    t.Lawful L ∧ Derives s t := by
  have hfollows : Follows s { s with collected := s.collected ++ [id] } :=
    ⟨.refl _, fun _ _ h => h, fun _ _ h => h, fun _ h => List.mem_append_left _ h, fun _ h => h⟩
  refine ⟨⟨hs.arena, hs.pending, hs.loaded, ?_⟩, hfollows, fun _ hid _ => hid⟩
  refine { hs.classed with collected := fun i hi => ?_, fields := fun n c hc f hf k hk => ?_ }
  · rcases List.mem_append.1 hi with hi | hi
    · exact hs.classed.collected i hi
    · rw [List.mem_singleton.1 hi]
      exact hid
  · exact (hs.classed.fields n c hc f hf k hk).mono hfollows

/-- What has been collected already need not wait on the stack. -/
theorem Frontier.pop (h : s.Frontier (id :: stack)) (hid : id ∈ s.collected) :
    s.Frontier stack := by
  intro x hx
  refine ⟨(h x hx).1, fun f hf => ?_⟩
  rcases (h x hx).2 f hf with hf | hf
  · exact .inl hf
  · rcases List.mem_cons.1 hf with rfl | hf
    · exact .inl hid
    · exact .inr hf

theorem Frontier.push (h : s.Frontier []) (stack : List SchemaId) : s.Frontier stack := by
  intro x hx
  refine ⟨(h x hx).1, fun f hf => ?_⟩
  rcases (h x hx).2 f hf with hf | hf
  · exact .inl hf
  · cases hf

/-- What the step from `s` to `t` has to do with the top of the stack: mark it, explore it, and find
    what it refers to. -/
theorem Frontier.step {found : List SchemaId} (h : s.Frontier (id :: stack)) (hs : s.Lawful L)
    (hst : Follows s t) (hcollected : t.collected = s.collected ++ [id]) (hid : t.Explored id)
    (hfound : ∀ f, t.arena.Refers id f → f ∈ found) : t.Frontier (found ++ stack) := by
  intro x hx
  rw [hcollected] at hx ⊢
  rcases List.mem_append.1 hx with hx | hx
  -- what was collected before: of the forms it refers to, only `id` waited on the stack
  · have hlt : x < s.arena.next := hs.classed.collected x hx
    obtain ⟨hexplored, hrefers⟩ := h x hx
    refine ⟨hexplored.mono hlt hst, fun f hf => ?_⟩
    rcases hrefers f (hexplored.refers hlt hst hf) with hf | hf
    · exact .inl (List.mem_append_left _ hf)
    · rcases List.mem_cons.1 hf with rfl | hf
      · exact .inl (by simp)
      · exact .inr (List.mem_append_right _ hf)
  · rw [List.mem_singleton.1 hx]
    exact ⟨hid, fun f hf => .inr (List.mem_append_left _ (hfound f hf))⟩

/-- From `s` to `t` the stack is worked off: everything on it has been collected, and nothing waits
    any more. -/
def WorkedOff (stack : List SchemaId) (s t : Session) : Prop :=
  s.Frontier stack → t.Frontier [] ∧ ∀ x ∈ stack, x ∈ t.collected

theorem WorkedOff.nil (s : Session) : WorkedOff [] s s := fun h => ⟨h, by simp⟩

/-- The top of the stack may have been collected before. -/
theorem WorkedOff.skip (h : WorkedOff stack s t) (hst : Follows s t) (hid : id ∈ s.collected) :
    WorkedOff (id :: stack) s t := by
  intro hfrontier
  obtain ⟨hclosed, hall⟩ := h (hfrontier.pop hid)
  refine ⟨hclosed, fun x hx => ?_⟩
  rcases List.mem_cons.1 hx with rfl | hx
  · exact hst.collected x hid
  · exact hall x hx

/-- What the top of the stack leads to is worked off before the rest. -/
theorem WorkedOff.step {u : Session} {found : List SchemaId} (h : WorkedOff (found ++ stack) t u)
    (htu : Follows t u) (hcollected : t.collected = s.collected ++ [id])
    (hstep : s.Frontier (id :: stack) → t.Frontier (found ++ stack)) :
    WorkedOff (id :: stack) s u := by
  intro hfrontier
  obtain ⟨hclosed, hall⟩ := h (hstep hfrontier)
  refine ⟨hclosed, fun x hx => ?_⟩
  rcases List.mem_cons.1 hx with rfl | hx
  · exact htu.collected x (by simp [hcollected])
  · exact hall x (List.mem_append_right _ hx)

/-- When the top of the stack has been marked and its class, if it gives one, is registered, what it
    refers to is found, and the collection goes on with that. -/
theorem works_explore (hL : Arena.Upheld L) (hs : s.Lawful L) (hid : id < s.arena.next)
    (hstack : ∀ x ∈ stack, x < s.arena.next) {t : Session} (ht : t.Lawful L) (hst : Follows s t)
    (hcollected : t.collected = s.collected ++ [id])
    (hclass : isClass (s.arena.schema id) = true →
      ∃ n, t.classNames.get? id = some n ∧ t.classes.contains n = true)
    {rest : List SchemaId → SessionWork Unit}
    (hrest : ∀ found u, u.Lawful L → (∀ x ∈ found ++ stack, x < u.arena.next) →
      Works L (rest found) u fun _ v => WorkedOff (found ++ stack) u v) :
    Works L (dependencies calls id >>= rest) t fun _ v => WorkedOff (id :: stack) s v := by
  have hidt : id < t.arena.next := Nat.lt_of_lt_of_le hid hst.arena.next
  refine .bind (keeps_dependencies hL ht hidt).works fun found u hu _ hdeps => ?_
  obtain ⟨htu, hfound, hdone⟩ := hdeps
  have hsu : Follows s u := trans_of Follows hst htu.toFollows
  have hschema : u.arena.schema id = s.arena.schema id := hsu.arena.schema id hid
  have hmarked : u.collected = s.collected ++ [id] := htu.same.trans hcollected
  rw [hst.arena.schema id hid, ← hschema] at hdone
  -- the children were normalized just now, and the class has been registered before
  have hexplored : u.Explored id := by
    refine ⟨fun c hc => ?_, fun hc => ?_⟩
    · obtain ⟨r, hr, -⟩ := hdone c hc
      exact ⟨r, hr⟩
    · obtain ⟨n, hname, hn⟩ := hclass (hschema ▸ hc)
      exact ⟨n, htu.classNames id n hname, htu.classes n hn⟩
  -- a child has one answer, so the form that it has is the one that was found
  have hrefers : ∀ f, u.arena.Refers id f → f ∈ found := by
    rintro f ⟨c, hc, hform⟩
    obtain ⟨r, hr, hmem⟩ := hdone c hc
    rw [hform] at hr
    cases hr
    exact hmem f rfl
  refine (hrest found u hu fun x hx => ?_).mono fun _ v _ huv hv => ?_
  · rcases List.mem_append.1 hx with hx | hx
    · exact hu.arena.isForm_lt (hu.isForm_of_refers (hfound x hx))
    · exact Nat.lt_of_lt_of_le (hstack x hx) hsu.arena.next
  · exact hv.step huv.toFollows hmarked fun h => h.step hs hsu hmarked hexplored hrefers

theorem works_collectWithin (hL : Arena.Upheld L) (hs : s.Lawful L) (steps : Nat)
    (hstack : ∀ x ∈ stack, x < s.arena.next) :
    Works L (collectWithin calls naming steps stack) s fun _ t => WorkedOff stack s t := by
  -- induction on the steps; the stack is any list of forms, since a step pushes what it finds
  induction steps generalizing stack s with
  | zero =>
      cases stack with
      | nil => exact .pure hs (WorkedOff.nil s)
      | cons id stack => exact .exhausted hs
  | succ steps ih =>
      cases stack with
      | nil => exact .pure hs (WorkedOff.nil s)
      | cons id stack =>
          have hid : id < s.arena.next := hstack id (by simp)
          have hrest : ∀ x ∈ stack, x < s.arena.next := fun x hx =>
            hstack x (List.mem_cons_of_mem id hx)
          unfold collectWithin
          refine .view_bind ?_
          split
          · next hknown =>
              have hmem : id ∈ s.collected := by simpa using hknown
              exact (ih hs hrest).mono fun _ t _ hst ht => ht.skip hst.toFollows hmem
          -- a form is marked before its class is made, so a cycle comes back to a marked one
          obtain ⟨hmarked, hsm⟩ := hs.collect hid
          refine .modify_bind hmarked hsm ?_
          refine .bind (keeps_asType hL hmarked hid).works fun c t ht hmt hc => ?_
          obtain ⟨hstays, hnone, hsome⟩ := hc
          have hst : Follows s t := (trans_of Derives hsm hmt).toFollows
          cases c with
          | none =>
              refine works_explore hL hs hid hrest ht hst hstays.same (fun hclass => ?_)
                fun found u hu hfound => ih hu hfound
              simp [hnone rfl] at hclass
          | some c =>
              obtain ⟨hname, hfields⟩ := hsome c rfl
              have hmem : id ∈ t.collected := by simp [hstays.same]
              -- the fields name forms that `id` refers to, and `id` is marked by now
              have hpromised : ∀ f ∈ c.fields, ∀ n ∈ f.type.names, t.Promised n :=
                fun f hf n hn => .inr ⟨id, hmem, hfields f hf n hn⟩
              refine .bind (keeps_registerNew ht hpromised).works fun _ u hu htu hu' => ?_
              obtain ⟨hstays', hregistered⟩ := hu'
              refine works_explore hL hs hid hrest hu (trans_of Follows hst htu.toFollows)
                (hstays'.same.trans hstays.same) (fun _ => ?_) fun found v hv hfound => ih hv hfound
              exact ⟨c.name, hstays'.classNames id c.name hname, hregistered⟩

/-- What has been collected stays closed when the type at a pointer is worked out, and every class
    that the type names is registered. -/
theorem serves_typeAt (hL : Arena.Upheld L) (hs : s.Lawful L) (hP : Hereditary P)
    {document : Json} (hd : P document) (p : Pointer) (required : Bool) :
    Serves L (typeAt document calls naming p required) s fun r t => s.Frontier [] →
      t.Frontier [] ∧ ∀ u ∈ r, ∀ n ∈ u.names, t.classes.contains n = true := by
  unfold typeAt
  refine .bind (serves_load hs hP hd p) fun id t ht hst hid => ?_
  obtain ⟨hsame, hid, -⟩ := hid
  refine .bind (keeps_positionType hL ht hid required).works.serves fun r u hu _ hr => ?_
  obtain ⟨htu, hr⟩ := hr
  have hidu : id < u.arena.next := Nat.lt_of_lt_of_le hid htu.arena.next
  refine .bind (keeps_normalize hL hu calls hidu).works.serves fun q v hv _ hq => ?_
  obtain ⟨huv, hq⟩ := hq
  have htv : Stays t v := trans_of Stays htu huv
  have hsv : Follows s v := trans_of Follows hst htv.toFollows
  have hsame' : v.collected = s.collected := htv.same.trans hsame
  -- the type is that of the form which is looked up here once more
  have hform : ∀ w ∈ r, ∃ form, q = some form ∧ v.Covers form w := by
    intro w hw
    obtain ⟨form, hdone, hcovers⟩ := hr w hw
    have hdone' := huv.arena.done id _ hdone
    rw [hq] at hdone'
    cases hdone'
    exact ⟨form, rfl, hcovers.mono huv.toFollows⟩
  cases q with
  | none =>
      refine .pure hv fun hclosed => ⟨hclosed.mono hs hsv hsame', fun w hw => ?_⟩
      obtain ⟨form, hnone, -⟩ := hform w hw
      cases hnone
  | some form =>
      have hlt : form < v.arena.next := hv.arena.isForm_lt (hv.arena.form id form hq)
      refine .bind (works_collectWithin hL hv calls ?_).serves fun _ w hw hvw hcollect => .pure hw ?_
      · exact fun x hx => List.mem_singleton.1 hx ▸ hlt
      · intro hclosed
        obtain ⟨hclosedw, hmem⟩ := hcollect ((hclosed.mono hs hsv hsame').push [form])
        refine ⟨hclosedw, fun ty hty n hn => ?_⟩
        obtain ⟨_, ⟨⟩, hcovers⟩ := hform ty hty
        exact hclosedw.contains (hmem form (by simp)) (hcovers.mono hvw n hn)

end ApiModel.Session
