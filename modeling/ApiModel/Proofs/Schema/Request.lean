/-
  ApiModel.Proofs.Schema.Request

  The requests that a session answers, and the sessions that a sequence of calls leads to. A call is
  a request or one of the small steps that building a model takes between its requests: a name is
  suggested, given out or looked up, a class is registered, something is warned of, or classes and
  warnings are taken out. A request may fail, for a fault of the document or because its supply of
  calls is used up, and the next one goes on from the session that it left. Whatever law follows
  from what answers come of holds of all answers in every session that is reached.
-/
import ApiModel.Proofs.Schema.Class
import ApiModel.Proofs.Schema.Effect

namespace ApiModel.Session

open Work

variable {P : Json → Prop} {L : Arena.Law P} {s t : Session} {document : Json} {naming : Naming}
  {calls : Nat}

/-! ## Requests -/

/-- What a session can be asked. -/
inductive Request where
  | load (p : Pointer)
  | normalize (id : SchemaId)
  | conjoin (a b : SchemaId)
  | conjoinAt (a b : SchemaId) (place : Pointer)
  | positionType (id : SchemaId) (required : Bool)
  | typeAt (p : Pointer) (required : Bool)
  | asType (id : SchemaId)
  | dependencies (id : SchemaId)
  | collect (roots : List SchemaId)

/-- The schemas that a request names. -/
def Request.ids : Request → List SchemaId
  | .load _ | .typeAt _ _ => []
  | .normalize id | .positionType id _ | .asType id | .dependencies id => [id]
  | .conjoin a b | .conjoinAt a b _ => [a, b]
  | .collect roots => roots

/-- Do what a request asks for, with a supply of nested calls. -/
def answer (document : Json) (naming : Naming) (calls : Nat) : Request → SessionWork Unit
  | .load p => do discard (load document p)
  | .normalize id => do discard (Session.normalize calls id)
  | .conjoin a b => do discard (Session.conjoin calls a b)
  | .conjoinAt a b place => do discard (Session.conjoinAt calls a b place)
  | .positionType id required => do discard (Session.positionType calls naming id required)
  | .typeAt p required => do discard (Session.typeAt document calls naming p required)
  | .asType id => do discard (Session.asType calls naming id)
  | .dependencies id => do discard (Session.dependencies calls id)
  | .collect roots => collect calls naming roots

/-! ## Calls -/

/-- What a session can be called for: a request, or a step that leaves schemas and types alone. -/
inductive Call where
  | ask (r : Request)
  | suggest (place : Pointer) (name : String)
  | className (id : SchemaId)
  | allocateName (module : List String) (base : String)
  | register (c : Client.Class)
  | warn (w : Warning)
  | takeClasses
  | takeWarnings

/-- The schemas that a call names. -/
def Call.ids : Call → List SchemaId
  | .ask r => r.ids
  | .className id => [id]
  | _ => []

/-- A call can be made when the schemas that it names are there, and the classes that a class to be
    registered names are registered, or will be. -/
structure Call.Admissible (s : Session) (c : Call) : Prop where
  ids : ∀ id ∈ c.ids, id < s.arena.next
  fields : ∀ k, c = .register k → ∀ f ∈ k.fields, ∀ n ∈ f.type.names, s.Promised n

/-- Do what a call is for; the name that it gives, if it gives one. -/
def perform (document : Json) (naming : Naming) (calls : Nat) : Call → SessionWork (Option TypeName)
  | .ask r => do
    answer document naming calls r
    return none
  | .suggest place name => do
    Session.suggest place name
    return none
  | .className id => do return some (← Session.className naming id)
  | .allocateName module base => do return some (← Session.allocateName naming module base)
  | .register c => do
    Session.register c
    return none
  | .warn w => do
    Session.warn w
    return none
  | .takeClasses => do
    let _ ← Session.takeClasses
    return none
  | .takeWarnings => do
    let _ ← Session.takeWarnings
    return none

/-- The session `t` is left by a call to `s`, which may have failed. -/
def Step (document : Json) (naming : Naming) (s t : Session) : Prop :=
  ∃ (c : Call) (calls : Nat), c.Admissible s ∧ t = ((perform document naming calls c).run s).2

/-- A call that asks ends as the request does. -/
theorem run_perform_ask (r : Request) (s : Session) :
    (perform document naming calls (.ask r)).run s =
      (((answer document naming calls r).run s).1.map fun _ => none,
        ((answer document naming calls r).run s).2) := by
  unfold perform
  rw [run_bind]
  rcases (answer document naming calls r).run s with ⟨_ | _, _⟩ <;> rfl

/-- A request is a call. -/
theorem step_ask (r : Request) (calls : Nat)
    (hids : ∀ id ∈ r.ids, id < s.arena.next) :
    Step document naming s ((answer document naming calls r).run s).2 :=
  ⟨.ask r, calls, ⟨hids, nofun⟩, by rw [run_perform_ask]⟩

/-- Loading is a request. -/
theorem step_load (s : Session) (p : Pointer) :
    Step document naming s ((load document p).run s).2 := by
  have hrun : ((load document p).run s).2 = ((answer document naming 0 (.load p)).run s).2 := by
    unfold answer
    rw [run_discard]
  exact hrun ▸ step_ask (.load p) 0 (by simp [Request.ids])

/-- So is normalizing. -/
theorem step_normalize {id : SchemaId} (hid : id < s.arena.next) (calls : Nat) :
    Step document naming s ((normalize calls id).run s).2 := by
  have hrun : ((normalize calls id).run s).2 =
      ((answer document naming calls (.normalize id)).run s).2 := by
    unfold answer
    rw [run_discard]
  exact hrun ▸ step_ask (.normalize id) calls (by simpa [Request.ids] using hid)

/-- The session `t` is left by a sequence of calls to `s`. -/
abbrev Later (document : Json) (naming : Naming) : Session → Session → Prop :=
  Relation.ReflTransGen (Step document naming)

/-- A session that calls to an empty one lead to. -/
abbrev Reachable (document : Json) (naming : Naming) (s : Session) : Prop :=
  Later document naming .empty s

/-- What a session can be asked without another look at the document. -/
def Request.Offline : Request → Prop
  | .load _ | .typeAt _ _ => False
  | _ => True

/-- A call without another look at the document. -/
def Call.Offline : Call → Prop
  | .ask r => r.Offline
  | _ => True

/-- What typing and registering classes allow, every request allows that does not load. -/
theorem obeys_answer {R : Session → Session → Prop} [IsPreorder Session R]
    (hR : AllowsTyping calls naming R) (hclasses : AllowsClasses calls naming R) {r : Request}
    (hr : r.Offline) : Obeys R (answer document naming calls r) := by
  have hwork := hR.toAllowsWork
  cases r with
  | load p => cases hr
  | typeAt p required => cases hr
  | normalize id => exact .bind (obeys_normalize hwork id) fun _ => .pure _
  | conjoin a b => exact .bind (.view_bind fun _ => obeys_solve hwork _) fun _ => .pure _
  | conjoinAt a b place => exact .bind (obeys_solve hwork _) fun _ => .pure _
  | positionType id required => exact .bind (obeys_positionType hR id required) fun _ => .pure _
  | asType id => exact .bind (obeys_asType hR id) fun _ => .pure _
  | dependencies id => exact .bind (obeys_dependencies hwork id) fun _ => .pure _
  | collect roots => exact obeys_collect hR hclasses roots

/-- Where loading is allowed too, every request is. -/
theorem obeys_request {R : Session → Session → Prop} [IsPreorder Session R]
    (hR : AllowsTyping calls naming R) (hloading : AllowsLoading R)
    (hclasses : AllowsClasses calls naming R) (r : Request) :
    Obeys R (answer document naming calls r) := by
  cases r with
  | load p => exact .bind (obeys_load hR.toAllowsWork hloading p) fun _ => .pure _
  | typeAt p required => exact .bind (obeys_typeAt hR hloading hclasses p required) fun _ => .pure _
  | _ => exact obeys_answer hR hclasses trivial

/-- Without another look at the document, nothing of it is added. -/
theorem works_answer (hL : Arena.Upheld L) (hs : s.Lawful L) {r : Request} (hr : r.Offline)
    (hids : ∀ id ∈ r.ids, id < s.arena.next) :
    Works L (answer document naming calls r) s fun _ _ => True := by
  cases r with
  | load p => cases hr
  | typeAt p required => cases hr
  | normalize id =>
      have hid : id < s.arena.next := hids id (by simp [Request.ids])
      exact Yields.discard (keeps_normalize hL hs calls hid).works
  | conjoin a b =>
      have ha : a < s.arena.next := hids a (by simp [Request.ids])
      have hb : b < s.arena.next := hids b (by simp [Request.ids])
      exact Yields.discard (keeps_conjoin hL hs calls ha hb).works
  | conjoinAt a b place =>
      have ha : a < s.arena.next := hids a (by simp [Request.ids])
      have hb : b < s.arena.next := hids b (by simp [Request.ids])
      exact Yields.discard (keeps_conjoinAt hL hs calls ha hb place).works
  | positionType id required =>
      have hid : id < s.arena.next := hids id (by simp [Request.ids])
      exact Yields.discard (keeps_positionType hL hs hid required).works
  | asType id =>
      have hid : id < s.arena.next := hids id (by simp [Request.ids])
      exact Yields.discard (keeps_asType hL hs hid).works
  | dependencies id =>
      have hid : id < s.arena.next := hids id (by simp [Request.ids])
      exact Yields.discard (keeps_dependencies hL hs hid).works
  | collect roots =>
      exact (works_collectWithin hL hs calls hids).mono fun _ _ _ _ _ => trivial

theorem serves_answer (hL : Arena.Upheld L) (hP : Hereditary P) (hd : P document)
    (hs : s.Lawful L) (r : Request) (hids : ∀ id ∈ r.ids, id < s.arena.next) :
    Serves L (answer document naming calls r) s fun _ _ => True := by
  cases r with
  | load p => exact Yields.discard (serves_load hs hP hd p)
  | typeAt p required => exact Yields.discard (serves_typeAt hL hs hP hd p required)
  | _ => exact (works_answer hL hs (by trivial) hids).serves

/-! ## Steps between requests -/

/-- A call that is no request. -/
def Call.Aside : Call → Prop
  | .ask _ => False
  | _ => True

theorem Call.ask_or_aside (c : Call) : (∃ r, c = .ask r) ∨ c.Aside := by
  cases c with
  | ask r => exact .inl ⟨r, rfl⟩
  | _ => exact .inr trivial

/-- The schemas and what is loaded of them, the types and the marks are the same. -/
structure Spares (s t : Session) : Prop where
  arena : t.arena = s.arena
  loaded : t.loaded = s.loaded
  types : t.types = s.types
  typing : t.typing = s.typing
  collected : t.collected = s.collected

instance : IsPreorder Session Spares where
  refl _ := ⟨rfl, rfl, rfl, rfl, rfl⟩
  trans _ _ _ h h' := ⟨h'.arena.trans h.arena, h'.loaded.trans h.loaded, h'.types.trans h.types,
    h'.typing.trans h.typing, h'.collected.trans h.collected⟩

theorem obeys_spares_perform {c : Call} (hc : c.Aside) :
    Obeys Spares (perform document naming calls c) := by
  have hmodify : ∀ {g : Session → Session}, (∀ s, Spares s (g s)) → Obeys Spares (modify g) :=
    fun h => .modify h
  have hnamed : ∀ module base, Obeys Spares (Session.allocateName naming module base) :=
    fun _ _ => .view_bind fun _ => .bind (hmodify fun _ => ⟨rfl, rfl, rfl, rfl, rfl⟩) fun _ => .pure _
  unfold perform
  cases c with
  | ask r => cases hc
  | suggest place name =>
      exact .bind (hmodify fun _ => ⟨rfl, rfl, rfl, rfl, rfl⟩) fun _ => .pure _
  | className id =>
      refine .bind (.view_bind fun known => ?_) fun _ => .pure _
      cases known with
      | some n => exact .pure n
      | none =>
          refine .view_bind fun _ => .view_bind fun _ => .bind (hnamed _ _) fun _ => ?_
          exact .bind (hmodify fun _ => ⟨rfl, rfl, rfl, rfl, rfl⟩) fun _ => .pure _
  | allocateName module base => exact .bind (hnamed module base) fun _ => .pure _
  | register c => exact .bind (hmodify fun _ => ⟨rfl, rfl, rfl, rfl, rfl⟩) fun _ => .pure _
  | warn w =>
      refine .bind (hmodify fun s => ?_) fun _ => .pure _
      split <;> exact ⟨rfl, rfl, rfl, rfl, rfl⟩
  | takeClasses =>
      refine .bind (.view_bind fun _ => .bind (hmodify fun _ => ?_) fun _ => .pure _) fun _ =>
        .pure _
      exact ⟨rfl, rfl, rfl, rfl, rfl⟩
  | takeWarnings =>
      refine .bind (.view_bind fun _ => .bind (hmodify fun _ => ?_) fun _ => .pure _) fun _ =>
        .pure _
      exact ⟨rfl, rfl, rfl, rfl, rfl⟩

/-- A step between requests adds to the session, unless it takes the classes out. -/
theorem keeps_perform (hs : s.Lawful L) {c : Call} (hc : c.Aside) (hne : c ≠ .takeClasses)
    (h : c.Admissible s) : Keeps L (perform document naming calls c) s fun _ _ => True := by
  have hkept : ∀ {α : Type} {x : SessionWork α} {post : α → Session → Prop}
      (g : α → Option TypeName), Keeps L x s post →
      Keeps L (x >>= fun a => pure (g a)) s fun _ _ => True :=
    fun _ hx => Yields.bind hx fun _ _ ht _ _ => .pure ht trivial
  unfold perform
  cases c with
  | ask r => cases hc
  | suggest place name => exact hkept _ (keeps_modify hs rfl)
  | className id => exact hkept _ (keeps_className hs id)
  | allocateName module base => exact hkept _ (keeps_allocateName hs module base)
  | register c => exact hkept _ (keeps_register hs (h.fields c rfl))
  | warn w => exact hkept _ (keeps_warn hs w)
  | takeClasses => exact absurd rfl hne
  | takeWarnings =>
      have htake : Keeps L takeWarnings s fun _ _ => True :=
        .view_bind (.bind (keeps_modify hs rfl) fun _ _ ht _ _ => .pure ht trivial)
      exact hkept _ htake

/-- Without its classes a session is as lawful. -/
theorem Lawful.withoutClasses (hs : s.Lawful L) : Lawful L { s with classes := .empty } where
  arena := hs.arena
  pending := hs.pending
  loaded := hs.loaded
  classed :=
    { types := hs.classed.types
      collected := hs.classed.collected
      keys := List.nodup_nil
      named := nofun
      fields := nofun }

theorem lawful_perform (hs : s.Lawful L) {c : Call} (hc : c.Aside) (h : c.Admissible s) :
    Lawful L ((perform document naming calls c).run s).2 := by
  by_cases htake : c = .takeClasses
  · subst htake
    exact hs.withoutClasses
  · exact (keeps_perform hs hc htake h).final.1

theorem lawful_step (hL : Arena.Upheld L) (hP : Hereditary P) (hd : P document)
    (hs : s.Lawful L) (h : Step document naming s t) : t.Lawful L ∧ s.arena.Grows t.arena := by
  obtain ⟨c, calls, hc, rfl⟩ := h
  rcases c.ask_or_aside with ⟨r, rfl⟩ | haside
  · obtain ⟨ht, hst⟩ := (serves_answer hL hP hd hs r hc.ids).final
    rw [run_perform_ask]
    exact ⟨ht, hst.arena⟩
  · refine ⟨lawful_perform hs haside hc, ?_⟩
    rw [(obeys_spares_perform haside s).arena]
    exact .refl s.arena

/-- Whatever a session is called for, it stays lawful, and its schemas and their answers stay. -/
theorem lawful_of_later (hL : Arena.Upheld L) (hP : Hereditary P) (hd : P document)
    (hs : s.Lawful L) (h : Later document naming s t) : t.Lawful L ∧ s.arena.Grows t.arena := by
  induction h with
  | refl => exact ⟨hs, .refl s.arena⟩
  | tail _ hstep ih =>
      obtain ⟨hlawful, hgrows⟩ := lawful_step hL hP hd ih.1 hstep
      exact ⟨hlawful, ih.2.trans hgrows⟩

/-- Every session that is reached is lawful. -/
theorem Reachable.lawful (hL : Arena.Upheld L) (hP : Hereditary P) (hd : P document)
    (h : Reachable document naming s) : s.Lawful L :=
  (lawful_of_later hL hP hd (lawful_empty L) h).1

end ApiModel.Session
