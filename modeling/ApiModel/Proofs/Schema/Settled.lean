/-
  ApiModel.Proofs.Schema.Settled

  What normalization settles is settled for good. Between requests no schema is under normalization,
  whatever went wrong before; an answer about a normal form is the same ever after; and a normal form
  has the shape of one and is, like its alternatives, its own normal form.
-/
import ApiModel.Proofs.Schema.Request

namespace ApiModel

/-- The law that demands nothing. -/
def Arena.Law.free : Arena.Law fun _ => True where
  form _ _ _ := True
  both _ _ _ _ := True
  form_mono _ _ _ _ _ _ := trivial
  both_mono _ _ _ _ _ _ _ := trivial
  form_self _ _ := trivial
  both_self _ _ := trivial

theorem Arena.upheld_free : Upheld Law.free where
  form _ _ _ := trivial
  both _ _ _ _ _ := trivial

/-- A known answer is looked up, and nothing else happens. -/
theorem Arena.run_solve_of_done {a : Arena} {id : SchemaId} {r : Option SchemaId}
    (h : a.progress.get? id = some (.done r)) (calls : Nat) :
    (solve (calls + 1) (.normalize id)).run a = (.ok r, a) := by
  show (normalize (solve calls) id).run a = _
  unfold normalize
  rw [Work.run_bind, Work.run_view, h]
  rfl

namespace Session

variable {document : Json} {naming : Naming} {s t : Session} {id : SchemaId}
  {r : Option SchemaId}

theorem run_normalize_of_done (h : t.arena.progress.get? id = some (.done r)) (calls : Nat) :
    (normalize (calls + 1) id).run t = (.ok r, t) := by
  unfold normalize onArena
  rw [Work.run_focus, Arena.run_solve_of_done h]

/-- What every request leaves behind: nothing is under normalization, and the answer of every
    normalization that succeeded is given again by any later one, however many calls it is given.
    The schema that it names is in normal form, and it and its alternatives are their own normal
    forms. -/
theorem settled_of_reachable (hs : Reachable document naming s) :
    s.arena.pending = [] ∧ (∀ id, s.arena.progress.get? id ≠ some .inProgress) ∧
    ∀ {id calls r s'}, id < s.arena.next → (normalize calls id).run s = (.ok r, s') →
      ∀ t, Later document naming s' t →
        (∀ n, (normalize (n + 1) id).run t = (.ok r, t)) ∧
        ∀ form, r = some form → (t.arena.schema form).IsNormal ∧
          ∀ b ∈ form :: (t.arena.schema form).anyOf, ∀ n,
            (normalize (n + 1) b).run t = (.ok (some b), t) := by
  have hL := Arena.upheld_free
  have hlawful := hs.lawful hL hereditary_true trivial
  refine ⟨hlawful.pending, fun id hid => ?_, fun {id calls r s'} hid hrun t hlater => ?_⟩
  · rw [hlawful.arena.pending, hlawful.pending] at hid
    cases hid
  · -- the answer stands in the memo, which later requests only add to
    obtain ⟨⟨hlawful', -⟩, hdone⟩ := (keeps_normalize hL hlawful calls hid).of_ok hrun
    obtain ⟨ht, hst⟩ := lawful_of_later hL hereditary_true trivial hlawful' hlater
    have hdone' := hst.done _ _ hdone
    refine ⟨run_normalize_of_done hdone', ?_⟩
    rintro form rfl
    have hform := ht.arena.form _ _ hdone'
    obtain ⟨hnormal, hbranches⟩ := ht.arena.normal form hform
    refine ⟨hnormal, fun b hb => run_normalize_of_done ?_⟩
    rcases List.mem_cons.1 hb with rfl | hb
    · exact hform
    · exact hbranches b hb

/-- A schema of texts and of nothing at all, as two alternatives. -/
def twoKinds : Json :=
  .obj [("anyOf", .arr [.obj [("type", .str "string")], .obj [("type", .str "null")]])]

/-- The session that has loaded it. -/
def twoKindsLoaded : Session := ((answer twoKinds .marked 1 (.load .root)).run .empty).2

theorem reachable_twoKinds : Reachable twoKinds .marked twoKindsLoaded :=
  .single (step_ask (.load .root) 1 (by simp [Request.ids]))

theorem run_normalize_twoKinds : (normalize 3 0).run twoKindsLoaded =
    (.ok (some 6), ((normalize 3 0).run twoKindsLoaded).2) :=
  Work.run_eq_of_toOption (by decide +kernel)

theorem settled_twoKinds : twoKindsLoaded.arena.pending = [] ∧
    ∀ n, ((normalize (n + 1) 0).run ((normalize 3 0).run twoKindsLoaded).2).1.toOption =
      some (some 6) := by
  obtain ⟨hpending, -, hsettled⟩ := settled_of_reachable reachable_twoKinds
  refine ⟨hpending, fun n => ?_⟩
  have hlt : 0 < twoKindsLoaded.arena.next := by decide +kernel
  rw [(hsettled hlt run_normalize_twoKinds _ .refl).1 n]
  rfl

end Session

end ApiModel
