/-
  ApiModel.Proofs.Schema.Upkeep

  Properties of sessions that depend on the types that are remembered. Where additions that leave
  these types alone keep such a property, and working out the type of a normal form does, every
  request does; so it holds of every session that is reached.
-/
import ApiModel.Proofs.Schema.Request

namespace ApiModel.Session

open Work

variable {P : Json → Prop} {L : Arena.Law P} {I : Session → Prop} {R : Session → Session → Prop}
  {s t : Session} {document : Json} {naming : Naming} {calls : Nat} {id : SchemaId}

/-- The types that have been worked out are the same, and so is the path to the one at hand. -/
def SameMemo (s t : Session) : Prop := t.types = s.types ∧ t.typing = s.typing

instance : IsPreorder Session SameMemo where
  refl _ := ⟨rfl, rfl⟩
  trans _ _ _ h h' := ⟨h'.1.trans h.1, h'.2.trans h.2⟩

theorem allowsSteps_sameMemo : AllowsSteps SameMemo where
  arena _ _ _ := ⟨rfl, rfl⟩
  named _ _ _ := ⟨rfl, rfl⟩
  marked _ _ := ⟨rfl, rfl⟩
  warned _ _ := ⟨rfl, rfl⟩

/-- `x`, started in `s`, keeps the session lawful and `I` up, and only adds to it. -/
abbrev Upholds {α : Type} (L : Arena.Law P) (I : Session → Prop) (x : SessionWork α) (s : Session)
    (post : α → Session → Prop) : Prop :=
  Yields (fun t => t.Lawful L ∧ I t) Follows x s post

/-- A property of sessions that holds before any call, that additions to the arena keep as long as
    the types are left alone, and that working out the type of a normal form keeps. -/
structure KeptUp (L : Arena.Law P) (I : Session → Prop) : Prop where
  empty : I .empty
  mono : ∀ {s t}, s.Lawful L ∧ I s → t.Lawful L → s.arena.Grows t.arena → SameMemo s t → I t
  formType : ∀ {s} calls naming id, s.Lawful L ∧ I s → s.arena.IsForm id →
    Upholds L I (formType calls naming id) s fun _ _ => True

namespace KeptUp

/-- What leaves the types alone. -/
theorem upholds {α : Type} {x : SessionWork α} {post : α → Session → Prop} (hI : KeptUp L I)
    (hs : s.Lawful L ∧ I s) (hR : ∀ {t}, R s t → Follows s t) (h : Yields (Lawful L) R x s post)
    (hx : Obeys SameMemo x) : Upholds L I x s post :=
  h.of_final fun ht hst => ⟨⟨ht, hI.mono hs ht (hR hst).arena (hx s)⟩, hR hst⟩

theorem normalize (hI : KeptUp L I) (hL : Arena.Upheld L) (hs : s.Lawful L ∧ I s)
    (hid : id < s.arena.next) : Upholds L I (normalize calls id) s fun r t =>
      t.arena.progress.get? id = some (.done r) :=
  hI.upholds hs (fun h => h.toFollows) (keeps_normalize hL hs.1 calls hid)
    (obeys_normalize allowsSteps_sameMemo.toAllowsWork id)

/-- The type of the normal form that a schema has been found to have. -/
theorem formType_of_done (hI : KeptUp L I) (hs : s.Lawful L ∧ I s) {form : SchemaId}
    (hform : s.arena.progress.get? id = some (.done (some form))) :
    Upholds L I (Session.formType calls naming form) s fun _ _ => True :=
  hI.formType calls naming form hs (hs.1.arena.form id form hform)

theorem positionType (hI : KeptUp L I) (hL : Arena.Upheld L) (hs : s.Lawful L ∧ I s)
    (hid : id < s.arena.next) (required : Bool) :
    Upholds L I (positionType calls naming id required) s fun _ _ => True := by
  unfold Session.positionType
  refine .bind (hI.normalize hL hs hid) fun r t ht _ hr => ?_
  cases r with
  | none => exact .pure ht trivial
  | some form => exact .bind (hI.formType_of_done ht hr) fun _ u hu _ _ => .pure hu trivial

/-! ## Classes -/

theorem fieldsOf (hI : KeptUp L I) (hL : Arena.Upheld L) (hs : s.Lawful L ∧ I s)
    (required : SortedSet String) {es : List (String × SchemaId)}
    (hes : ∀ e ∈ es, e.2 < s.arena.next) (fields : List Client.Field) :
    Upholds L I (fieldsOf calls naming required es fields) s fun _ _ => True := by
  induction es generalizing s fields with
  | nil => exact .pure hs trivial
  | cons e es ih =>
      obtain ⟨wireName, child⟩ := e
      unfold Session.fieldsOf
      refine .bind (hI.normalize hL hs (hes _ List.mem_cons_self)) fun r t ht hst hr => ?_
      have hrest : ∀ {u}, Follows t u → ∀ e ∈ es, e.2 < u.arena.next := fun htu e he =>
        Nat.lt_of_lt_of_le (hes e (List.mem_cons_of_mem _ he))
          (Nat.le_trans hst.arena.next htu.arena.next)
      cases r with
      | none =>
          refine .view_bind (.bind (hI.upholds ht (fun h => h.toFollows) (keeps_warn ht.1 _)
            (obeys_warn allowsSteps_sameMemo.toAllowsWork _)) fun _ u hu htu _ => ?_)
          exact ih hu (hrest htu) _
      | some form =>
          refine .bind (hI.formType_of_done ht hr) fun type u hu htu _ => ?_
          exact .view_bind (.view_bind (ih hu (hrest htu) _))

theorem asType (hI : KeptUp L I) (hL : Arena.Upheld L) (hs : s.Lawful L ∧ I s) (id : SchemaId) :
    Upholds L I (asType calls naming id) s fun _ _ => True := by
  unfold Session.asType
  refine .view_bind ?_
  split
  · exact .pure hs trivial
  · refine .bind (hI.upholds hs (fun h => h.toFollows) (keeps_className hs.1 id)
      (obeys_className allowsSteps_sameMemo id)) fun name t ht hst _ => ?_
    refine .bind (hI.fieldsOf hL ht _ (fun e he => ?_) []) fun fields u hu _ _ =>
      .pure hu trivial
    have hchild : e.2 ∈ (s.arena.schema id).properties.values := List.mem_map.2 ⟨e, he, rfl⟩
    exact Nat.lt_of_lt_of_le ((hs.1.arena.proper id).links _
      (Schema.mem_links_of_part (by simp [Schema.parts, hchild]))) hst.arena.next

theorem dependencies (hI : KeptUp L I) (hL : Arena.Upheld L) (hs : s.Lawful L ∧ I s)
    (hid : id < s.arena.next) :
    Upholds L I (dependencies calls id) s fun forms t => ∀ f ∈ forms, f < t.arena.next := by
  refine (hI.upholds hs (fun h => h.toFollows) (keeps_dependencies hL hs.1 hid)
    (obeys_dependencies allowsSteps_sameMemo.toAllowsWork id)).mono fun forms t ht _ h f hf => ?_
  exact ht.1.arena.isForm_lt (ht.1.isForm_of_refers (h.1 f hf))

/-- A class that names only what will be registered may be registered. -/
theorem registerNew (hI : KeptUp L I) (hs : s.Lawful L ∧ I s) {c : Client.Class}
    (hc : ∀ f ∈ c.fields, ∀ n ∈ f.type.names, s.Promised n) :
    Upholds L I (registerNew c) s fun _ _ => True :=
  hI.upholds hs (fun h => h.toFollows) ((keeps_registerNew hs.1 hc).mono fun _ _ _ _ _ => trivial)
    (.modify fun _ => ⟨rfl, rfl⟩)

theorem collectWithin (hI : KeptUp L I) (hL : Arena.Upheld L) (hs : s.Lawful L ∧ I s) (steps : Nat)
    {stack : List SchemaId} (hstack : ∀ x ∈ stack, x < s.arena.next) :
    Upholds L I (collectWithin calls naming steps stack) s fun _ _ => True := by
  induction steps generalizing stack s with
  | zero =>
      cases stack with
      | nil => exact .pure hs trivial
      | cons id stack => exact .exhausted hs
  | succ steps ih =>
      cases stack with
      | nil => exact .pure hs trivial
      | cons id stack =>
          have hid : id < s.arena.next := hstack id List.mem_cons_self
          have hrest : ∀ x ∈ stack, x < s.arena.next := fun x hx =>
            hstack x (List.mem_cons_of_mem id hx)
          unfold Session.collectWithin
          refine .view_bind ?_
          split
          · exact ih hs hrest
          obtain ⟨hmarked, hsm⟩ := hs.1.collect hid
          have hkept := hI.mono hs hmarked hsm.arena ⟨rfl, rfl⟩
          refine .modify_bind ⟨hmarked, hkept⟩ hsm.toFollows ?_
          have hfound : ∀ {t}, t.Lawful L ∧ I t → Follows s t →
              Upholds L I (Session.dependencies calls id >>= fun found =>
                Session.collectWithin calls naming steps (found ++ stack)) t fun _ _ => True := by
            intro t ht hst
            refine .bind (hI.dependencies hL ht (Nat.lt_of_lt_of_le hid hst.arena.next))
              fun found u hu htu hfound => ih hu fun x hx => ?_
            rcases List.mem_append.1 hx with hx | hx
            · exact hfound x hx
            · exact Nat.lt_of_lt_of_le (hrest x hx) (trans_of Follows hst htu).arena.next
          have hmem : id ∈ ({ s with collected := s.collected ++ [id] } : Session).collected := by
            simp
          generalize ({ s with collected := s.collected ++ [id] } : Session) = w at *
          have hclass : Upholds L I (Session.asType calls naming id) w fun _ _ => True :=
            hI.asType hL ⟨hmarked, hkept⟩ id
          have hnames : Keeps L (Session.asType calls naming id) w _ :=
            keeps_asType hL hmarked (Nat.lt_of_lt_of_le hid hsm.arena.next)
          refine .bind (Q := fun c t => Follows s t ∧
            ∀ c' ∈ c, ∀ f ∈ c'.fields, ∀ n ∈ f.type.names, t.Promised n) ?_ ?_
          · refine Ends.mono (Ends.and hclass hnames) ?_ fun _ _ h => h.1
            rintro c t ⟨⟨ht, -⟩, ⟨-, hstays⟩, -, hc⟩
            refine ⟨ht, trans_of Follows hsm.toFollows hstays.toFollows, fun c' hc' f hf n hn => ?_⟩
            -- the form is marked, and the fields name what it leads to
            exact .inr ⟨id, hstays.same ▸ hmem, (hc c' hc').2 f hf n hn⟩
          · rintro c t ht - ⟨hst, hc⟩
            cases c with
            | none => exact hfound ht hst
            | some c =>
                exact .bind (hI.registerNew ht (hc c rfl)) fun _ u hu htu _ =>
                  hfound hu (trans_of Follows hst htu)

/-! ## Requests -/

theorem load (hI : KeptUp L I) (hs : s.Lawful L ∧ I s) (hP : Hereditary P) (hd : P document)
    (p : Pointer) : Upholds L I (load document p) s fun id t => id < t.arena.next :=
  hI.upholds hs id ((serves_load hs.1 hP hd p).mono fun _ _ _ _ h => h.2.1)
    (obeys_load allowsSteps_sameMemo.toAllowsWork ⟨fun _ _ => ⟨rfl, rfl⟩, fun _ _ _ => ⟨rfl, rfl⟩⟩ p)

theorem typeAt (hI : KeptUp L I) (hL : Arena.Upheld L) (hs : s.Lawful L ∧ I s) (hP : Hereditary P)
    (hd : P document) (p : Pointer) (required : Bool) :
    Upholds L I (typeAt document calls naming p required) s fun _ _ => True := by
  unfold Session.typeAt
  refine .bind (hI.load hs hP hd p) fun id t ht _ hid => ?_
  refine .bind (hI.positionType hL ht hid required) fun r u hu htu _ => ?_
  refine .bind (hI.normalize hL hu (Nat.lt_of_lt_of_le hid htu.arena.next)) fun q v hv _ hq => ?_
  cases q with
  | none => exact .pure hv trivial
  | some form =>
      have hlt : form < v.arena.next := hv.1.arena.isForm_lt (hv.1.arena.form id form hq)
      refine .bind (hI.collectWithin hL hv calls fun x hx => ?_) fun _ w hw _ _ =>
        .pure hw trivial
      exact List.mem_singleton.1 hx ▸ hlt

/-- Whatever a session is asked, it keeps the property up. -/
theorem answer (hI : KeptUp L I) (hL : Arena.Upheld L) (hP : Hereditary P) (hd : P document)
    (hs : s.Lawful L ∧ I s) (r : Request) (hids : ∀ id ∈ r.ids, id < s.arena.next) :
    Upholds L I (answer document naming calls r) s fun _ _ => True := by
  cases r with
  | load p => exact Yields.discard (hI.load hs hP hd p)
  | normalize id => exact Yields.discard (hI.normalize hL hs (hids id (by simp [Request.ids])))
  | conjoin a b =>
      have ha : a < s.arena.next := hids a (by simp [Request.ids])
      have hb : b < s.arena.next := hids b (by simp [Request.ids])
      exact Yields.discard (hI.upholds hs (fun h => h.toFollows) (keeps_conjoin hL hs.1 calls ha hb)
        (.view_bind fun _ => obeys_solve allowsSteps_sameMemo.toAllowsWork _))
  | conjoinAt a b place =>
      have ha : a < s.arena.next := hids a (by simp [Request.ids])
      have hb : b < s.arena.next := hids b (by simp [Request.ids])
      exact Yields.discard (hI.upholds hs (fun h => h.toFollows)
        (keeps_conjoinAt hL hs.1 calls ha hb place)
        (obeys_solve allowsSteps_sameMemo.toAllowsWork _))
  | positionType id required =>
      exact Yields.discard (hI.positionType hL hs (hids id (by simp [Request.ids])) required)
  | typeAt p required => exact Yields.discard (hI.typeAt hL hs hP hd p required)
  | asType id => exact Yields.discard (hI.asType hL hs id)
  | dependencies id =>
      exact Yields.discard (hI.dependencies hL hs (hids id (by simp [Request.ids])))
  | collect roots => exact hI.collectWithin hL hs calls hids

/-- Whatever a session is called for, it keeps the property up. -/
theorem perform (hI : KeptUp L I) (hL : Arena.Upheld L) (hP : Hereditary P) (hd : P document)
    (hs : s.Lawful L ∧ I s) (c : Call) (hc : c.Admissible s) :
    Lawful L ((Session.perform document naming calls c).run s).2 ∧
      I ((Session.perform document naming calls c).run s).2 := by
  rcases c.ask_or_aside with ⟨r, rfl⟩ | haside
  · rw [run_perform_ask]
    exact (hI.answer hL hP hd hs r hc.ids).final.1
  · have hlawful : Lawful L ((Session.perform document naming calls c).run s).2 :=
      lawful_perform hs.1 haside hc
    have hsame : Spares s ((Session.perform document naming calls c).run s).2 :=
      obeys_spares_perform haside s
    exact ⟨hlawful, hI.mono hs hlawful (hsame.arena ▸ .refl s.arena) ⟨hsame.types, hsame.typing⟩⟩

/-- What is kept up holds of every session that is reached. -/
theorem of_reachable (hI : KeptUp L I) (hL : Arena.Upheld L) (hP : Hereditary P) (hd : P document)
    (h : Reachable document naming s) : s.Lawful L ∧ I s := by
  induction h with
  | refl => exact ⟨lawful_empty L, hI.empty⟩
  | tail _ hstep ih =>
      obtain ⟨c, calls, hc, rfl⟩ := hstep
      exact hI.perform hL hP hd ih c hc

end KeptUp

end ApiModel.Session
