/-
  ApiModel.Proofs.Client.Construction

  Building a model, step by step. Between the steps the session is lawful and closed: every class
  that something collected can name is registered. A step that gives a result keeps this, and the
  types in its result name registered classes only. What is registered stays so, hence the types of
  earlier results do too.
-/
import ApiModel.Proofs.Client.Model
import ApiModel.Proofs.Schema.Request
import ApiModel.Proofs.Schema.Settled

namespace ApiModel.Client.Construction

open Work

variable {b : Setting} {c d : Construction} {place : Pointer}

/-- The session is lawful, and nothing is left to collect. -/
structure Closed (c : Construction) : Prop where
  lawful : c.session.Lawful Arena.Law.free
  frontier : c.session.Frontier []

/-- What the session of `c` has, that of `d` has. -/
def Grows (c d : Construction) : Prop := c.session.Follows d.session

instance : IsPreorder Construction Grows where
  refl c := refl_of Session.Follows c.session
  trans _ _ _ h h' := trans_of Session.Follows h h'

/-- Every class that a type names is registered. -/
def Registered (c : Construction) (t : TypeExpr) : Prop :=
  ∀ n ∈ t.names, c.session.classes.contains n = true

/-- If `x` from `c` gives a result, nothing is left to collect and nothing is lost. -/
abbrev Builds {α : Type} (x : BuildWork α) (c : Construction)
    (post : α → Construction → Prop) : Prop :=
  Gives Closed Grows x c post

theorem closed_empty : empty.Closed where
  lawful := Session.lawful_empty _
  frontier := fun x hx => by cases hx

theorem Registered.mono {t : TypeExpr} (h : c.Registered t) (hcd : Grows c d) : d.Registered t :=
  fun n hn => hcd.classes n (h n hn)

theorem registered_of_names_eq_nil {t : TypeExpr} (h : t.names = []) : c.Registered t := by
  intro n hn
  rw [h] at hn
  cases hn

theorem registered_named {n : TypeName} (h : c.session.classes.contains n = true) :
    c.Registered (.named n) := by
  intro m hm
  rw [TypeExpr.names, List.mem_singleton] at hm
  rw [hm]
  exact h

theorem registered_optionalOf {t : TypeExpr} (h : c.Registered t) :
    c.Registered (.optionalOf t) := by
  rw [Registered, TypeExpr.names_optionalOf]
  exact h

theorem registered_unionOf {ts : List TypeExpr} (h : ∀ t ∈ ts, c.Registered t) :
    c.Registered (.unionOf ts) := by
  intro n hn
  obtain ⟨t, ht, hn⟩ := TypeExpr.names_unionOf hn
  exact h t ht n hn

/-! ## Steps of the session -/

/-- A change that the session does not notice. -/
theorem builds_modify (hc : c.Closed) {g : Construction → Construction}
    (hg : (g c).session = c.session) : Builds (Work.modify g) c fun _ _ => True := by
  have hgrows : Grows c (g c) := by
    rw [Grows, hg]
    exact refl_of Session.Follows c.session
  exact ⟨⟨⟨hg ▸ hc.lawful, hg ▸ hc.frontier⟩, hgrows⟩, trivial⟩

theorem builds_serves {α : Type} {x : SessionWork α} {post : α → Session → Prop} (hc : c.Closed)
    (hx : Session.Serves Arena.Law.free x c.session fun a t =>
      c.session.Frontier [] → t.Frontier [] ∧ post a t) :
    Builds (onSession x) c fun a d => post a d.session := by
  refine ends_focus.2 (Ends.mono hx ?_ fun _ _ _ => trivial)
  rintro a t ⟨⟨ht, hst⟩, ha⟩
  obtain ⟨hfrontier, hpost⟩ := ha hc.frontier
  exact ⟨⟨⟨ht, hfrontier⟩, hst⟩, hpost⟩

/-- A step of the session that collects nothing. -/
theorem builds_keeps {α : Type} {x : SessionWork α} {post : α → Session → Prop} (hc : c.Closed)
    (hx : Session.Keeps Arena.Law.free x c.session post) :
    Builds (onSession x) c fun a d => post a d.session := by
  refine builds_serves hc (hx.works.serves.mono fun a t _ _ h hfrontier => ?_)
  obtain ⟨hst, hpost⟩ := h
  exact ⟨hfrontier.mono hc.lawful hst.toFollows hst.same, hpost⟩

theorem builds_warn (hc : c.Closed) (w : Warning) : Builds (warn w) c fun _ _ => True :=
  builds_keeps hc (Session.keeps_warn hc.lawful w)

/-! ## Types -/

theorem builds_schemaType (hc : c.Closed) (required : Bool) (hint : String) :
    Builds (schemaType b place required hint) c fun t d => d.Registered t := by
  unfold schemaType
  refine .bind (builds_keeps hc (Session.keeps_modify hc.lawful rfl)) fun _ d hd _ _ => ?_
  refine .bind (builds_serves hd (Session.serves_typeAt Arena.upheld_free hd.lawful
    hereditary_true trivial place required)) fun r e he _ hr => ?_
  cases r with
  | some t => exact .pure he (hr t rfl)
  | none =>
      refine .bind (builds_warn he _) fun _ f hf _ _ => .pure hf ?_
      exact registered_of_names_eq_nil rfl

/-- The type of a parameter or header names registered classes only. -/
theorem builds_payload (hc : c.Closed) (schema : Option Json) (content : Option Document.Content)
    (required : Bool) (hint : String) :
    Builds (payload b place schema content required hint) c fun r d => d.Registered r.1 := by
  have hany : c.Registered .any := registered_of_names_eq_nil rfl
  unfold payload
  split
  · exact .fault
  · exact .bind (builds_schemaType hc required hint) fun t d hd _ ht => .pure hd ht
  · exact .pure hc hany
  · split
    · exact .pure hc hany
    · split
      · exact .bind (builds_schemaType hc required hint) fun t d hd _ ht => .pure hd ht
      · exact .pure hc hany
    · exact .fault

theorem builds_syntheticClass (hc : c.Closed) (base : String) {fields : List Field}
    (hfields : ∀ f ∈ fields, c.Registered f.type) (allowExtra : Bool) :
    Builds (syntheticClass b place base fields allowExtra) c
      fun n d => d.session.classes.contains n = true := by
  unfold syntheticClass
  refine .bind (builds_keeps hc (Session.keeps_allocateName hc.lawful _ base)) ?_
  intro name d hd hcd _
  refine .bind (builds_keeps hd (Session.keeps_register hd.lawful ?_)) ?_
  · exact fun f hf n hn => .inl ((hfields f hf).mono hcd n hn)
  · exact fun _ e he _ hname => .pure he hname

end ApiModel.Client.Construction
