/-
  ApiModel.Proofs.Schema.Recursion

  What recursion makes a normalization fail. A cycle that is reported is a walk from a schema through
  `allOf`, `anyOf` and `oneOf` back to itself. Schemas that recur below properties, items or further
  properties only are never at fault for it, whatever was asked before.
-/
import ApiModel.Proofs.Schema.Cycle

namespace ApiModel

namespace Arena

variable {o : Arena} {x root : SchemaId} {trail : List Pointer}

/-- A walk from a schema back to itself, as a path of one step at least. -/
theorem transGen_of_walk {R : SchemaId → SchemaId → Prop} {rest : List SchemaId}
    (h : (x :: (rest ++ [x])).IsChain R) : Relation.TransGen R x x := by
  obtain ⟨y, l, hl⟩ : ∃ y l, rest ++ [x] = y :: l := by
    cases rest with
    | nil => exact ⟨x, [], rfl⟩
    | cons y l => exact ⟨y, l ++ [x], rfl⟩
  have hlast : (y :: l).getLast (by simp) = x := by simp [← hl]
  rw [hl] at h
  obtain ⟨hxy, hchain⟩ := List.isChain_cons_cons.1 h
  refine .head' hxy ?_
  exact List.relationReflTransGen_of_exists_isChain_cons l hchain hlast

theorem CombinatorCycle.exists_transGen (h : CombinatorCycle o root trail) :
    ∃ x, Relation.ReflTransGen o.Link root x ∧ Relation.TransGen o.Member x x := by
  obtain ⟨x, rest, -, hchain, hleads⟩ := h
  exact ⟨x, (hleads x (by simp)).1, transGen_of_walk hchain⟩

end Arena

namespace Session

variable {document : Json} {naming : Naming} {s : Session} {id : SchemaId}

/-- A cycle that the normalization of a schema reports, in any session, is told by the places of a
    walk from a schema through members back to itself, and the schema leads to all that is on the
    walk. Where nothing that the schema leads to is a member of itself, over any number of steps, no
    cycle is reported. -/
theorem referenceCycle_of_normalize (hs : Reachable document naming s)
    (hid : id < s.arena.next) :
    (∀ calls trail,
      ((normalize calls id).run s).1 = .error (.fault (.referenceCycle trail)) →
      2 ≤ trail.length ∧ trail.head? = trail.getLast? ∧
        ∃ walk : List SchemaId, trail = walk.map (fun x => (s.arena.schema x).pointer) ∧
          walk.head? = walk.getLast? ∧ walk.IsChain s.arena.Member ∧
          ∀ x ∈ walk, Relation.ReflTransGen s.arena.Link id x) ∧
    ((∀ x, Relation.ReflTransGen s.arena.Link id x → ¬Relation.TransGen s.arena.Member x x) →
      ∀ calls trail,
        ((normalize calls id).run s).1 ≠ .error (.fault (.referenceCycle trail))) := by
  have hlawful := hs.lawful Arena.upheld_provenance hereditary_true trivial
  have hwf := hlawful.arena.toWellFormed
  -- nothing is under normalization, so the schema may be asked for
  have hready : s.arena.Ready id :=
    .inr ⟨[], [], by rw [hlawful.pending]; rfl, List.isChain_singleton id, by simp⟩
  have hadmitted : Arena.Admitted s.arena id s.arena id := ⟨⟨hid, fun _ hz => hz⟩, hready⟩
  have hcycle : ∀ calls trail,
      ((normalize calls id).run s).1 = .error (.fault (.referenceCycle trail)) →
      Arena.CombinatorCycle s.arena id trail := by
    intro calls trail hrun
    have htracing := Arena.tracing_solve hwf hid calls
    exact (htracing.fails (.normalize id) s.arena ⟨hlawful.arena, .refl s.arena⟩
      hadmitted).of_error hrun trail rfl
  refine ⟨fun calls trail hrun => ?_, fun hno calls trail hrun => ?_⟩
  · obtain ⟨x, rest, rfl, hchain, hleads⟩ := hcycle calls trail hrun
    have hends : (x :: (rest ++ [x])).head? = (x :: (rest ++ [x])).getLast? := by
      rw [← List.cons_append, List.getLast?_concat]
      rfl
    refine ⟨?_, ?_, _, rfl, hends, hchain, fun z hz => (hleads z hz).1⟩
    · simp only [List.length_map, List.length_cons, List.length_append, List.length_nil]
      omega
    · rw [List.head?_map, List.getLast?_map, hends]
  · obtain ⟨x, hreach, hx⟩ := (hcycle calls trail hrun).exists_transGen
    exact hno x hreach hx

/-- Two schemas that are members of each other, and one that recurs below a property. -/
def loopAndList : Json :=
  .obj [("loop", .obj [("allOf", .arr [.obj [("$ref", .str "#/turn")]])]),
    ("turn", .obj [("oneOf", .arr [.obj [("$ref", .str "#/loop")]])]),
    ("list", .obj [("properties", .obj [("next", .obj [("$ref", .str "#/list")])])])]

def loopLoaded : Session :=
  ((answer loopAndList .marked 1 (.load (Pointer.root.push "loop"))).run .empty).2

/-- The session that has loaded all three. -/
def listLoaded : Session :=
  ((answer loopAndList .marked 1 (.load (Pointer.root.push "list"))).run loopLoaded).2

theorem reachable_listLoaded : Reachable loopAndList .marked listLoaded :=
  .tail (.single (step_ask (.load (Pointer.root.push "loop")) 1 (by simp [Request.ids])))
    (step_ask (.load (Pointer.root.push "list")) 1 (by simp [Request.ids]))

/-- The cycle that a run reports. -/
def reportedCycle? {α : Type} : Except Failure α → Option (List Pointer)
  | .error (.fault (.referenceCycle trail)) => some trail
  | _ => none

theorem eq_of_reportedCycle? {α : Type} {r : Except Failure α} {trail : List Pointer}
    (h : reportedCycle? r = some trail) : r = .error (.fault (.referenceCycle trail)) := by
  unfold reportedCycle? at h
  split at h
  · cases h
    rfl
  · cases h

theorem referenceCycle_loopAndList :
    (∃ walk : List SchemaId,
      [Pointer.root.push "loop", Pointer.root.push "turn", Pointer.root.push "loop"] =
        walk.map (fun x => (listLoaded.arena.schema x).pointer) ∧
      walk.IsChain listLoaded.arena.Member) ∧
    ∀ calls trail,
      ((normalize calls 2).run listLoaded).1 ≠ .error (.fault (.referenceCycle trail)) := by
  have hlt : ∀ id < 3, id < listLoaded.arena.next := by decide +kernel
  constructor
  · have hrun : ((normalize 5 0).run listLoaded).1 = .error (.fault (.referenceCycle
        [Pointer.root.push "loop", Pointer.root.push "turn", Pointer.root.push "loop"])) :=
      eq_of_reportedCycle? (by decide +kernel)
    obtain ⟨-, -, walk, htrail, -, hchain, -⟩ :=
      (referenceCycle_of_normalize reachable_listLoaded (hlt 0 (by decide))).1 5 _ hrun
    exact ⟨walk, htrail, hchain⟩
  · refine (referenceCycle_of_normalize reachable_listLoaded (hlt 2 (by decide))).2 ?_
    -- the list leads to itself alone and has no members
    have hlinks : (listLoaded.arena.schema 2).links = [2] ∧
        (listLoaded.arena.schema 2).members = [] := by decide +kernel
    intro x hx hxx
    have hx2 : x = 2 := by
      clear hxx
      induction hx with
      | refl => rfl
      | tail _ hyz ih =>
          rw [ih, Arena.Link, hlinks.1, List.mem_singleton] at hyz
          exact hyz
    obtain ⟨y, hxy, -⟩ := Relation.TransGen.head'_iff.1 hxx
    rw [hx2, Arena.Member, hlinks.2] at hxy
    cases hxy

end Session

end ApiModel
