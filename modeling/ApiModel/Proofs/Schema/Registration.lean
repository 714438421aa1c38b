/-
  ApiModel.Proofs.Schema.Registration

  The classes that are registered when a type is given out. A collection marks a normal form before
  its class is made, so one that fails leaves marks without classes, and later collections pass over
  them. Where no collection has failed, everything that a type names is registered, and so is
  everything that the fields of these classes name, however far down.
-/
import ApiModel.Proofs.Schema.Settled

namespace ApiModel.Session

open Work

variable {document : Json} {naming : Naming} {s t : Session} {n : TypeName} {u : TypeExpr}

/-! ## Calls that leave no marks behind -/

/-- The session `t` is left by a call to `s` that gave a result or collected nothing, and did not
    take the classes out. -/
def CleanStep (document : Json) (naming : Naming) (s t : Session) : Prop :=
  ∃ (c : Call) (calls : Nat), c.Admissible s ∧ c ≠ .takeClasses ∧
    t = ((perform document naming calls c).run s).2 ∧
    (t.collected = s.collected ∨ ∃ r, ((perform document naming calls c).run s).1 = .ok r)

/-- A session that such calls to an empty one lead to. -/
abbrev Clean (document : Json) (naming : Naming) (s : Session) : Prop :=
  Relation.ReflTransGen (CleanStep document naming) .empty s

/-- A request that gives a result leaves nothing waiting. -/
theorem frontier_of_ok (hs : s.Lawful Arena.Law.free) (h : s.Frontier []) {r : Request}
    {calls : Nat} (hids : ∀ id ∈ r.ids, id < s.arena.next)
    (hrun : (answer document naming calls r).run s = (.ok (), t)) : t.Frontier [] := by
  have hL := Arena.upheld_free
  have hstays : ∀ {α : Type} {x : SessionWork α} {post : α → Session → Prop},
      Keeps Arena.Law.free x s post → (discard x).run s = (.ok (), t) → t.Frontier [] := by
    intro α x post hx hrun
    rw [run_discard] at hrun
    obtain rfl := (Prod.mk.inj hrun).2
    exact h.mono hs hx.final.2.toFollows hx.final.2.same
  cases r with
  | load p =>
      unfold answer at hrun
      rw [run_discard] at hrun
      rcases hload : (load document p).run s with ⟨e | id, w⟩ <;> rw [hload] at hrun <;> cases hrun
      obtain ⟨⟨-, hst⟩, hsame, -⟩ := (serves_load hs hereditary_true trivial p).of_ok hload
      exact h.mono hs hst hsame
  | normalize id => exact hstays (keeps_normalize hL hs calls (hids id (by simp [Request.ids]))) hrun
  | conjoin a b =>
      have ha : a < s.arena.next := hids a (by simp [Request.ids])
      have hb : b < s.arena.next := hids b (by simp [Request.ids])
      exact hstays (keeps_conjoin hL hs calls ha hb) hrun
  | conjoinAt a b place =>
      have ha : a < s.arena.next := hids a (by simp [Request.ids])
      have hb : b < s.arena.next := hids b (by simp [Request.ids])
      exact hstays (keeps_conjoinAt hL hs calls ha hb place) hrun
  | positionType id required =>
      exact hstays (keeps_positionType hL hs (hids id (by simp [Request.ids])) required) hrun
  | typeAt p required =>
      unfold answer at hrun
      rw [run_discard] at hrun
      rcases htype : (typeAt document calls naming p required).run s with ⟨e | v, w⟩ <;>
        rw [htype] at hrun <;> cases hrun
      exact ((serves_typeAt hL hs hereditary_true trivial p required).of_ok htype).2 h |>.1
  | asType id => exact hstays (keeps_asType hL hs (hids id (by simp [Request.ids]))) hrun
  | dependencies id =>
      exact hstays (keeps_dependencies hL hs (hids id (by simp [Request.ids]))) hrun
  | collect roots =>
      exact (((works_collectWithin hL hs calls hids).of_ok hrun).2 (h.push roots)).1

theorem Clean.frontier (h : Clean document naming s) :
    s.Lawful Arena.Law.free ∧ s.Frontier [] := by
  induction h with
  | refl => exact ⟨lawful_empty _, nofun⟩
  | @tail s t _ hstep ih =>
      obtain ⟨hs, hfrontier⟩ := ih
      obtain ⟨c, calls, hc, htake, rfl, hclean⟩ := hstep
      rcases c.ask_or_aside with ⟨r, rfl⟩ | haside
      · obtain ⟨ht, hst⟩ :=
          (serves_answer Arena.upheld_free hereditary_true trivial hs r hc.ids).final
        rw [run_perform_ask] at hclean ⊢
        refine ⟨ht, ?_⟩
        rcases hclean with hsame | ⟨_, hok⟩
        · exact hfrontier.mono hs hst hsame
        · rcases hrun : (answer document naming calls r).run s with ⟨e | u, t⟩ <;> rw [hrun] at hok
          · cases hok
          · exact frontier_of_ok hs hfrontier hc.ids hrun
      · obtain ⟨ht, hst⟩ := (keeps_perform hs haside htake hc).final
        exact ⟨ht, hfrontier.mono hs hst.toFollows hst.same⟩

/-! ## What a type leads to -/

/-- The type `u` names the class `n`, or a registered class that it leads to does in a field. -/
inductive LeadsTo (s : Session) (u : TypeExpr) : TypeName → Prop
  | name {n : TypeName} (h : n ∈ u.names) : LeadsTo s u n
  | field {m n : TypeName} {c : Client.Class} {f : Client.Field} (h : LeadsTo s u m)
      (hc : s.classes.get? m = some c) (hf : f ∈ c.fields) (hn : n ∈ f.type.names) : LeadsTo s u n

/-- As long as no collection has failed, all classes that the type at a pointer leads to are
    registered when it is given out. -/
theorem registered_of_typeAt (hs : Clean document naming s) {calls : Nat} {p : Pointer}
    {required : Bool}
    (hrun : (typeAt document calls naming p required).run s = (.ok (some u), t))
    (hn : LeadsTo t u n) : t.classes.contains n = true := by
  obtain ⟨hlawful, hfrontier⟩ := hs.frontier
  obtain ⟨⟨ht, -⟩, htype⟩ :=
    (serves_typeAt Arena.upheld_free hlawful hereditary_true trivial p required).of_ok hrun
  obtain ⟨hclosed, hnames⟩ := htype hfrontier
  induction hn with
  | name h => exact hnames u rfl _ h
  | field _ hc hf hn _ => exact hclosed.of_promised (ht.classed.fields _ _ hc _ hf _ hn)

/-- An object with a property that cannot be worked out. -/
def unreadableMember : Json :=
  .obj [("type", .str "object"), ("properties", .obj [("x", .obj [("allOf", .arr [
    .obj [("multipleOf", .num (.int 2))], .obj [("multipleOf", .num (.int 3))]])])])]

/-- After a collection that failed, the type names a class that is not registered. -/
example :
    let first := (typeAt unreadableMember 9 .marked .root true).run .empty
    let second := (typeAt unreadableMember 9 .marked .root true).run first.2
    first.1.toOption = none ∧ second.1.toOption.isSome = true ∧ second.2.classes.keys = [] := by
  decide +kernel

end ApiModel.Session
