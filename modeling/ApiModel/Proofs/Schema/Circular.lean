/-
  ApiModel.Proofs.Schema.Circular

  Types that contain themselves. The type of a normal form is refused just where what it is spelled
  with leads back to itself, as far as that can be looked for at all. The search goes on along a path
  without repetition, so it ends where the graph is finite; what it has found is spelled out, and so
  is whatever is remembered of earlier searches. A search that fails remembers nothing of the walk on
  which it failed.
-/
import ApiModel.Proofs.Schema.Recursion
import ApiModel.Proofs.Schema.Search

namespace ApiModel.Session

open Work (Ends Settles Yields)
open Filter (atTop Tendsto)

variable {o : Arena} {n x y : SchemaId} {path : List SchemaId} {s t : Session}
  {document : Json} {naming : Naming} {u : TypeExpr}

/-! ## One step of the search -/

/-- Before a search nothing is on the path. -/
theorem Scene.start (hs : s.Lawful Arena.Law.free) (htyping : s.typing = [])
    (hremembers : s.Remembers) (n : SchemaId) : Scene s.arena n [] s where
  lawful := hs
  remembers := hremembers
  explored := .refl
  typing := htyping
  undone := nofun
  walk h := absurd rfl h
  nodup := .nil

/-- The search comes to a normal form that is neither known nor on the path. -/
theorem Scene.enter (hs : Scene o n path s) (hwalk : s.arena.Walk n (path ++ [y]))
    (hnew : s.types.get? y = none) (hy : y ∉ path) :
    Scene o n (path ++ [y]) { s with typing := s.typing ++ [y] } where
  lawful := (hs.lawful.of_known (t := { s with typing := s.typing ++ [y] }) rfl).1
  remembers := hs.remembers
  explored := hs.explored
  typing := congrArg (· ++ [y]) hs.typing
  undone x hx := by
    rcases List.mem_append.1 hx with hx | hx
    · exact hs.undone x hx
    · rwa [List.mem_singleton.1 hx]
  walk _ := hwalk
  nodup := hs.nodup.append (List.nodup_singleton y) (by simpa using hy)

/-- It leaves a normal form whose type it has found. -/
theorem Scene.leave (ht : Scene o n (path ++ [y]) t) (hform : t.arena.IsForm y)
    (hout : t.arena.SpelledOut y) (hlawful : (settleType y (.ok u) t).Lawful Arena.Law.free) :
    Scene o n path (settleType y (.ok u) t) where
  lawful := hlawful
  remembers i v hv := by
    change (t.types.insert y u).get? i = some v at hv
    rw [Dict.get?_insert] at hv
    split at hv
    · next hi =>
        subst hi
        exact ⟨hform, hout⟩
    · exact ht.remembers i v hv
  explored := ht.explored
  typing := by
    show t.typing.dropLast = path
    rw [ht.typing, List.dropLast_concat]
  undone x hx := by
    show (t.types.insert y u).get? x = none
    have hne : x ≠ y := fun heq =>
      List.disjoint_of_nodup_append ht.nodup hx (List.mem_singleton.2 heq)
    rw [Dict.get?_insert_of_ne _ hne]
    exact ht.undone x (List.mem_append_left _ hx)
  walk hne := (ht.walk (by simp)).front hne
  nodup := ht.nodup.of_append_left

/-- A search that fails below `y` fails. -/
theorem Failing.leave {e : Failure} (h : Failing o n (path ++ [y]) e t) :
    Failing o n path e (settleType y (.error e) t) where
  remembers := h.remembers
  typing := by
    show t.typing.dropLast = path
    rw [h.typing, List.dropLast_concat]
  fault f hf := by
    obtain ⟨rest, hwalk, hundone, hcause⟩ := h.fault f hf
    rw [List.append_assoc, List.singleton_append] at hwalk hundone hcause
    exact ⟨y :: rest, hwalk, hundone, hcause⟩

/-- The search fails where it comes back to its path. -/
theorem Scene.failing (hs : Scene o n path s) (hwalk : s.arena.Walk n (path ++ [y]))
    (hnew : s.types.get? y = none) (hy : y ∈ path) :
    Failing o n path (.fault (.referenceCycle (s.arena.cycleTrail s.typing y))) s where
  remembers := hs.remembers
  typing := hs.typing
  fault f hf := by
    cases hf
    refine ⟨[y], hwalk, List.forall_mem_append.2 ⟨hs.undone, by simpa using hnew⟩, ?_⟩
    obtain ⟨before, rest, rfl, -, htrail⟩ := Arena.exists_cycleTrail s.arena hy
    rw [hs.typing, htrail, List.append_assoc, List.cons_append]
    exact .cycle before y rest

variable {ι : Type} {l : Filter ι} [l.NeBot] {T : Prop} {calls : ι → Nat} {typer : ι → Typer}

/-- The type of what comes next is known, or on the path, or searched for. -/
theorem settles_formTypeStep (hT : T → o.Traversable n) (hcalls : T → Tendsto calls l atTop)
    (hkeeper : ∀ i, Keeper Arena.Law.free (typer i)) (hs : Scene o n path s)
    (hform : s.arena.IsForm y) (hwalk : s.arena.Walk n (path ++ [y]))
    (htyper : y ∉ path → Searches T l o n (path ++ [y]) typer) :
    Settles T l (fun i => formTypeStep (calls i) naming (typer i) y) s
      (fun _ t => Scene o n path t ∧ Stays s t ∧ t.arena.SpelledOut y) (Failing o n path) := by
  unfold formTypeStep
  apply Settles.view_bind
  cases hmemo : s.types.get? y with
  | some u => exact .pure ⟨hs, refl_of Stays s, (hs.remembers y u hmemo).2⟩
  | none =>
      refine .view_bind (.ite (fun hy => ?_) fun hy => ?_)
      · exact .view_bind (.fault (hs.failing hwalk hmemo (by simpa [hs.typing] using hy)))
      have hnew : y ∉ path := by simpa [hs.typing] using hy
      have hs' := hs.enter hwalk hmemo hnew
      have hst := (hs.lawful.of_known (t := { s with typing := s.typing ++ [y] }) rfl).2
      refine .modify_bind (.thenAlways ?_)
      generalize ({ s with typing := s.typing ++ [y] } : Session) = s' at hs' hst
      have hform' := hst.arena.form hform
      -- what is remembered names only what it may name, besides being spelled out
      have hnames : ∀ i, Keeps Arena.Law.free (freshType (calls i) naming (typer i) y) s'
          fun u t => t.Covers y u :=
        fun i => keeps_freshType Arena.upheld_free (hkeeper i) hs'.lawful hform'
      refine ((settles_freshType (htyper hnew) (by simp) hT hcalls hs' hform').and_ends
        hnames).mono ?_ fun e t h => h.1.leave
      rintro u t ⟨⟨ht, hst', hout⟩, -, hcovers⟩
      obtain ⟨hlawful, hstays⟩ := ht.lawful.settleType (r := .ok u) (by rintro _ ⟨⟩; exact hcovers)
      exact ⟨ht.leave (hst'.arena.form hform') hout hlawful,
        trans_of Stays hst (trans_of Stays hst' hstays), hout⟩

/-! ## The whole search -/

/-- The path with what comes next on it is no longer than the graph is large. -/
theorem Scene.length_lt (hs : Scene o n path s) (hT : o.Traversable n)
    (hwalk : s.arena.Walk n (path ++ [y])) (hy : y ∉ path) :
    path.length < hT.finite.toFinset.card := by
  have hnodup : (path ++ [y]).Nodup :=
    hs.nodup.append (List.nodup_singleton y) (by simpa using hy)
  have hsub : (path ++ [y]).toFinset ⊆ hT.finite.toFinset := fun z hz => by
    rw [Set.Finite.mem_toFinset]
    exact ⟨s.arena, hs.explored, hwalk.reach (List.mem_toFinset.1 hz)⟩
  calc path.length < (path ++ [y]).length := by simp
    _ = (path ++ [y]).toFinset.card := (List.toFinset_card_of_nodup hnodup).symm
    _ ≤ hT.finite.toFinset.card := Finset.card_le_card hsub

/-- Every search keeps to its scenes. -/
theorem searches_formTypeWithin (naming : Naming) (calls steps : Nat) (path : List SchemaId) :
    Searches False (pure ()) o n path fun _ => formTypeWithin calls naming steps := by
  induction steps generalizing path with
  | zero => exact fun s y hs _ _ => ⟨fun _ => ⟨hs.remembers, hs.typing, nofun⟩, False.elim⟩
  | succ steps ih =>
      intro s y hs hform hwalk
      exact settles_formTypeStep False.elim False.elim
        (fun _ => keeper_formTypeWithin Arena.upheld_free steps) hs hform hwalk fun _ => ih _

/-- A search that takes one step after the other ends when what follows its first step does. -/
theorem Scene.settles_of_step (hs : Scene o n path s) (hT : o.Traversable n)
    (hform : s.arena.IsForm y) (hwalk : s.arena.Walk n (path ++ [y]))
    (htyper : y ∉ path → Searches True (atTop ×ˢ atTop) o n (path ++ [y])
      fun i => formTypeWithin i.1 naming i.2) :
    Settles True (atTop ×ˢ atTop) (fun i : Nat × Nat => formTypeWithin i.1 naming i.2 y) s
      (fun _ t => Scene o n path t ∧ Stays s t ∧ t.arena.SpelledOut y) (Failing o n path) where
  ends i := (searches_formTypeWithin naming i.1 i.2 path s y hs hform hwalk).ends ()
  halts _ := .of_inner_step (x := fun calls steps => formTypeWithin calls naming steps y)
    ((settles_formTypeStep (fun _ => hT) (fun _ => Filter.tendsto_fst)
      (fun i => keeper_formTypeWithin Arena.upheld_free i.2) hs hform hwalk htyper).halts trivial)

/-- Where the graph is finite, there is room on the path for so many normal forms only, so the search
    ends. -/
theorem searches_of_traversable (hT : o.Traversable n) (room : Nat) (path : List SchemaId)
    (hroom : hT.finite.toFinset.card ≤ path.length + room) :
    Searches True (atTop ×ˢ atTop) o n path fun i => formTypeWithin i.1 naming i.2 := by
  induction room generalizing path with
  | zero =>
      intro s y hs hform hwalk
      refine hs.settles_of_step hT hform hwalk fun hy => ?_
      have hlength := hs.length_lt hT hwalk hy
      omega
  | succ room ih =>
      intro s y hs hform hwalk
      refine hs.settles_of_step hT hform hwalk fun hy => ih _ ?_
      rw [List.length_append, List.length_singleton]
      omega

/-- The types that are remembered in any session are spelled out, and nothing is on the path. -/
theorem keptUp_remembers :
    KeptUp Arena.Law.free fun s => s.typing = [] ∧ s.Remembers where
  empty := ⟨rfl, fun _ _ h => by simp [Session.empty] at h⟩
  mono hs _ hst hsame :=
    ⟨hsame.2.trans hs.2.1, hs.2.2.mono hs.1.arena.toWellFormed hst hsame.1⟩
  formType {s} calls naming id hs hid := by
    have hsearch := (searches_formTypeWithin naming calls calls [] s id
      (.start hs.1 hs.2.1 hs.2.2 id) hid ⟨List.isChain_singleton id, rfl⟩).ends ()
    have hkeeps : Keeps Arena.Law.free (formTypeWithin calls naming calls id) s _ :=
      keeper_formTypeWithin Arena.upheld_free calls id s hs.1 hid
    refine Ends.mono (Ends.and hkeeps hsearch) ?_ ?_
    · rintro u t ⟨⟨⟨ht, hst⟩, -⟩, hscene, -⟩
      exact ⟨⟨⟨ht, hscene.typing, hscene.remembers⟩, hst.toFollows⟩, trivial⟩
    · rintro e t ⟨⟨ht, hst⟩, hfailing⟩
      exact ⟨⟨ht, hfailing.typing, hfailing.remembers⟩, hst.toFollows⟩

/-- Coming back to the path closes a walk. -/
theorem cycleBelow_of_walk {a : Arena} {before rest : List SchemaId}
    (h : a.Walk n (before ++ x :: (rest ++ [x]))) :
    (x :: (rest ++ [x])).IsChain a.Spells ∧ Relation.ReflTransGen a.Spells n x ∧ a.CycleBelow n := by
  have hchain := h.chain.right_of_append
  have hreach : Relation.ReflTransGen a.Spells n x := h.reach (by simp)
  exact ⟨hchain, hreach, x, hreach, Arena.transGen_of_walk hchain⟩

/-- In any session the type of a normal form fails to be worked out as follows. The path is empty
    afterwards, and for a fault there is a walk from the normal form to where it came up, on which
    nothing is remembered. Where what the type is spelled with is finite and can be normalized, the
    outcome is a type or a cycle, told by the places of a closed walk; and it is a cycle just where
    one is found, then or ever after, below the normal form. -/
theorem referenceCycle_of_formType (hs : Reachable document naming s) (hn : s.arena.IsForm n) :
    (∀ calls e t, (formType calls naming n).run s = (.error e, t) → t.typing = [] ∧
      ∀ f, e = .fault f → ∃ path, t.arena.Walk n path ∧ (∀ x ∈ path, t.types.get? x = none) ∧
        Cause s.arena n t.arena path f) ∧
    (s.arena.Traversable n → ∃ supply r t,
      (∀ calls, supply ≤ calls → (formType calls naming n).run s = (r, t)) ∧ Follows s t ∧
      ((∃ u, r = .ok u) ∨ ∃ trail, r = .error (.fault (.referenceCycle trail))) ∧
      (∀ trail, r = .error (.fault (.referenceCycle trail)) → ∃ x rest,
        trail = (x :: (rest ++ [x])).map (fun i => (t.arena.schema i).pointer) ∧
        (x :: (rest ++ [x])).IsChain t.arena.Spells ∧
        Relation.ReflTransGen t.arena.Spells n x) ∧
      ∀ w, Later document naming t w →
        ((∃ trail, r = .error (.fault (.referenceCycle trail))) ↔ w.arena.CycleBelow n)) := by
  obtain ⟨hlawful, htyping, hremembers⟩ :=
    keptUp_remembers.of_reachable Arena.upheld_free hereditary_true trivial hs
  have hscene := Scene.start hlawful htyping hremembers n
  have hwalk : s.arena.Walk n ([] ++ [n]) := ⟨List.isChain_singleton n, rfl⟩
  have hends : ∀ calls, (formType calls naming n).Ends s
      (fun _ t => Scene s.arena n [] t ∧ Stays s t ∧ t.arena.SpelledOut n)
      (Failing s.arena n []) :=
    fun calls => (searches_formTypeWithin naming calls calls [] s n hscene hn hwalk).ends ()
  have hkeeps : ∀ calls, Keeps Arena.Law.free (formType calls naming n) s fun u t => t.Covers n u :=
    fun calls => keeper_formTypeWithin Arena.upheld_free calls n s hlawful hn
  refine ⟨fun calls e t hrun => ?_, fun hT => ?_⟩
  · have hfailing := hends calls
    unfold Ends at hfailing
    rw [hrun] at hfailing
    exact ⟨hfailing.typing, hfailing.fault⟩
  have hsearch : Searches True (atTop ×ˢ atTop) s.arena n [] fun i =>
      formTypeWithin i.1 naming i.2 :=
    searches_of_traversable hT hT.finite.toFinset.card [] (by simp)
  obtain ⟨supply, r, t, hrun, hr⟩ :=
    Work.Halts.exists_supply (.diagonal (x := fun calls steps => formTypeWithin calls naming steps n)
      ((hsearch s n hscene hn hwalk).halts trivial))
  have hend := hends supply
  have hfinal := (hkeeps supply).final
  unfold Ends at hend
  rw [show (formType supply naming n).run s = (r, t) from hrun supply (Nat.le_refl _)] at hend hfinal
  obtain ⟨ht, hst⟩ := hfinal
  refine ⟨supply, r, t, hrun, hst.toFollows, ?_⟩
  have hlater : ∀ w, Later document naming t w → t.arena.Grows w.arena := fun w hw =>
    (lawful_of_later Arena.upheld_free hereditary_true trivial ht hw).2
  cases r with
  | ok u =>
      refine ⟨.inl ⟨u, rfl⟩, nofun, fun w hw => iff_of_false nofun ?_⟩
      exact (hend.2.2.mono ht.arena.toWellFormed (hlater w hw) (hst.arena.form hn)).not_cycleBelow
  | error e =>
      cases e with
      | exhausted => exact absurd rfl hr
      | fault f =>
          obtain ⟨path, hpath, -, hcause⟩ := hend.fault f rfl
          rw [List.nil_append] at hpath hcause
          cases hcause with
          | cycle before x rest =>
              obtain ⟨hchain, hreach, hcycle⟩ := cycleBelow_of_walk hpath
              refine ⟨.inr ⟨_, rfl⟩, ?_, fun w hw => iff_of_true ⟨_, rfl⟩ (hcycle.mono (hlater w hw))⟩
              rintro _ ⟨⟩
              exact ⟨x, rest, rfl, hchain, hreach⟩
          | normalization _ hb hx hc hfault => exact absurd hfault (hT.faultless _ _ _ hb hx hc _ f)

/-- An array of maps of themselves. -/
def tailAndLoop : Json :=
  .obj [("tail", .obj [("type", .str "array"), ("items", .obj [("$ref", .str "#/loop")])]),
    ("loop", .obj [("type", .str "object"),
      ("additionalProperties", .obj [("$ref", .str "#/loop")])])]

/-- The session that has loaded it and normalized the array and the map. -/
def tailNormal : Session :=
  let load := Request.load (Pointer.root.push "tail")
  let loaded := ((answer tailAndLoop .marked 1 load).run .empty).2
  let normal := ((answer tailAndLoop .marked 3 (.normalize 0)).run loaded).2
  ((answer tailAndLoop .marked 3 (.normalize 1)).run normal).2

theorem reachable_tailNormal : Reachable tailAndLoop .marked tailNormal :=
  .tail (.tail (.single (step_ask (.load (Pointer.root.push "tail")) 1 (by simp [Request.ids])))
    (step_ask (.normalize 0) 3 (by decide +kernel))) (step_ask (.normalize 1) 3 (by decide +kernel))

theorem traversable_tailNormal : tailNormal.arena.Traversable 2 := by
  have hschema : ∀ x ∈ [2, 3], (tailNormal.arena.schema x).anyOf = [] ∧
      (tailNormal.arena.schema x).spelled = [1] := by decide +kernel
  have hone : tailNormal.arena.progress.get? 1 = some (.done (some 3)) := by decide +kernel
  have hbelow : ∀ x, Relation.ReflTransGen tailNormal.arena.Spells 2 x → x ∈ [2, 3] := by
    intro x hx
    induction hx with
    | refl => decide
    | tail _ hyz ih =>
        obtain ⟨hany, hspelled⟩ := hschema _ ih
        cases hyz with
        | branch hb => simp [hany] at hb
        | part hc hform =>
            rw [hspelled, List.mem_singleton] at hc
            rw [hc, hone] at hform
            cases hform
            decide
  refine Arena.traversable_of_found ((List.finite_toSet [2, 3]).subset hbelow) fun x hx c hc => ?_
  rw [(hschema x (hbelow x hx)).2, List.mem_singleton] at hc
  exact ⟨some 3, hc ▸ hone⟩

theorem cycleBelow_tailNormal : tailNormal.arena.CycleBelow 2 := by
  have hspells : ∀ x ∈ [2, 3], tailNormal.arena.Spells x 3 := by
    intro x hx
    have hfound : ∀ x ∈ [2, 3], 1 ∈ (tailNormal.arena.schema x).spelled ∧
        tailNormal.arena.progress.get? 1 = some (.done (some 3)) := by decide +kernel
    exact .part (hfound x hx).1 (hfound x hx).2
  exact ⟨3, .single (hspells 2 (by decide)), .single (hspells 3 (by decide))⟩

theorem referenceCycle_tailAndLoop : ∃ supply trail t,
    (∀ calls, supply ≤ calls →
      (formType calls .marked 2).run tailNormal = (.error (.fault (.referenceCycle trail)), t)) ∧
    t.typing = [] := by
  have hform : tailNormal.arena.IsForm 2 := by
    show _ = _
    decide +kernel
  obtain ⟨hfails, hfinds⟩ := referenceCycle_of_formType reachable_tailNormal hform
  obtain ⟨supply, r, t, hrun, hst, -, -, hiff⟩ := hfinds traversable_tailNormal
  obtain ⟨trail, rfl⟩ := (hiff t .refl).2 (cycleBelow_tailNormal.mono hst.arena)
  exact ⟨supply, trail, t, hrun, (hfails supply _ t (hrun supply (Nat.le_refl _))).1⟩

end ApiModel.Session
