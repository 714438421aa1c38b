/-
  ApiModel.Proofs.Schema.Restriction

  What a conjunction demands of an object as a whole: the properties that it names, those that it
  requires, and whether it allows others. A side that allows no others takes away the names that it
  does not have itself, and the conjunction allows none either. This holds of every conjunction of
  normal forms without alternatives, also where an operand is taken for it.
-/
import ApiModel.Proofs.Schema.Request
import ApiModel.Proofs.Schema.Unconstrained

namespace ApiModel

namespace Arena

variable {P : Json → Prop} {L : Law P} {a : Arena} {x y n : SchemaId} {s u own out : Schema}

/-- What `s` and `u` together demand of an object as a whole, `out` demands. -/
structure Restricts (s u out : Schema) : Prop where
  names : ∀ k, out.properties.contains k = true ↔
    (s.properties.contains k = true ∨ u.properties.contains k = true) ∧
      (isClosed s = true → s.properties.contains k = true) ∧
      (isClosed u = true → u.properties.contains k = true)
  required : out.required = s.required.union u.required
  closed : isClosed s = true ∨ isClosed u = true → isClosed out = true

/-- What a schema demands of an object as a whole is read off its property names, the required ones
    and what holds for the others. -/
theorem Restricts.congr {out' : Schema} (h : Restricts s u out) (hparts : SameParts out out')
    (hrequired : out.required = out'.required) : Restricts s u out' where
  names k := by
    rw [← h.names k, Dict.contains, Dict.contains, hparts.properties k]
  required := hrequired ▸ h.required
  closed hclosed := by
    have hout := h.closed hclosed
    rwa [isClosed, hparts.extras] at hout

/-- A schema with the same demands, which may stand for the conjunction. -/
theorem Restricts.of_sameDemands (h : Restricts s u out) (hkeys : out.properties.keys.Nodup)
    {out' : Schema} (hsame : out.sameDemands out' = true) : Restricts s u out' := by
  refine h.congr (sameShape_of_sameDemands hsame hkeys).toSameParts ?_
  unfold Schema.sameDemands at hsame
  simp only [Bool.and_eq_true, and_assoc] at hsame
  obtain ⟨-, -, -, -, -, -, -, -, -, -, -, -, -, -, -, -, required, -⟩ := hsame
  exact eq_of_beq required

/-- A schema alone makes the demands that it makes twice. -/
theorem restricts_self (hs : s.required.Ascending) : Restricts s s s where
  names k := by simp +contextual
  required := (SortedSet.union_of_subset hs fun _ hk => hk).symm
  closed h := h.elim id id

/-! ## One side demands nothing -/

/-- A schema that matches every value demands nothing of an object as a whole. -/
theorem whole_of_unconstrained (hu : u.Unconstrained) :
    (∀ k, u.properties.contains k = false) ∧ u.required = .empty ∧ isClosed u = false :=
  ⟨fun k => by simp [Dict.contains, Dict.get?, hu.properties], hu.required,
    by simp [isClosed, hu.extras]⟩

theorem restricts_left (hs : s.required.Ascending) (hu : u.Unconstrained) : Restricts s u s := by
  obtain ⟨hnames, hrequired, hopen⟩ := whole_of_unconstrained hu
  refine ⟨fun k => ?_, ?_, fun h => ?_⟩
  · simp +contextual [hnames k, hopen]
  · rw [hrequired, SortedSet.union_of_subset hs fun k hk => by cases hk]
  · simpa [hopen] using h

theorem restricts_right (hu : u.required.Ascending) (hs : s.Unconstrained) : Restricts s u u := by
  obtain ⟨hnames, hrequired, hopen⟩ := whole_of_unconstrained hs
  refine ⟨fun k => ?_, ?_, fun h => ?_⟩
  · simp +contextual [hnames k, hopen]
  · rw [hrequired, SortedSet.empty_union hu]
  · simpa [hopen] using h

/-! ## Both sides demand something -/

/-- The demands of a conjunction, combined keyword by keyword. -/
theorem OwnJoined.restricts (h : OwnJoined L a s u own) : Restricts s u own := by
  cases h with
  | @mk _ _ e d hk _ he hd =>
      obtain ⟨place, m, p, f, rfl, -⟩ := hk
      refine ⟨fun k => ?_, rfl, fun hclosed => beq_of_eq (he.isClosed hclosed)⟩
      rw [← mem_mergedKeys]
      constructor
      · intro hk
        obtain ⟨c, hc⟩ := Option.isSome_iff_exists.1 hk
        exact (hd.joined hc).1
      · intro hk
        obtain ⟨c, hc, -⟩ := hd.named hk
        exact Dict.contains_of_get? hc

/-- An operand with the demands of the conjunction makes them, and so does what is stored. -/
theorem Reused.restricts (h : Reused a x y own (some n)) (hown : Restricts s u own)
    (hkeys : own.properties.keys.Nodup) : Restricts s u (a.schema n) := by
  generalize hr : some n = r at h
  cases h with
  | left hsame => cases hr; exact hown.of_sameDemands hkeys hsame
  | right hsame _ => cases hr; exact hown.of_sameDemands hkeys hsame
  | stored hs _ =>
      cases hs with
      | bottom _ => cases hr
      | stored _ _ hschema =>
          cases hr
          obtain ⟨vs, hvs, -⟩ := trimValues_eq own
          refine hown.congr ?_ ?_ <;> rw [hschema, hvs]
          exact ⟨rfl, fun _ => rfl, rfl⟩

theorem BothJoined.restricts (ha : a.WellFormed P) (h : BothJoined L a x y (some n))
    (hanyx : (a.schema x).anyOf = []) (hanyy : (a.schema y).anyOf = []) :
    Restricts (a.schema x) (a.schema y) (a.schema n) := by
  have hno : ¬((a.schema x).anyOf ≠ [] ∨ (a.schema y).anyOf ≠ []) := by simp [hanyx, hanyy]
  generalize hr : some n = r at h
  cases h with
  | rightFree hfree =>
      cases hr
      exact restricts_left (ha.proper x).required (Schema.isUnconstrained_iff.1 hfree)
  | leftFree hfree _ =>
      cases hr
      exact restricts_right (ha.proper y).required (Schema.isUnconstrained_iff.1 hfree)
  | itemsClash _ => cases hr
  | propertyClash _ _ => cases hr
  | plain hown _ _ hreused _ => exact (hr ▸ hreused).restricts hown.restricts hown.keys_nodup
  | noBranch hany _ => exact absurd hany hno
  | oneBranch hany _ => exact absurd hany hno
  | branches hany _ _ _ _ => exact absurd hany hno

/-! ## The law -/

/-- Conjunctions of normal forms without alternatives demand of an object as a whole what both sides
    demand. -/
def restricting (P : Json → Prop) : Law P where
  form _ _ _ := True
  both a x y r := ∀ n, r = some n → (a.schema x).anyOf = [] → (a.schema y).anyOf = [] →
    Restricts (a.schema x) (a.schema y) (a.schema n)
  form_mono _ _ _ _ _ _ := trivial
  both_mono ha _ h hx hy hr hlaw n hn := by
    rw [h.schema _ (ha.isForm_lt hx), h.schema _ (ha.isForm_lt hy),
      h.schema _ (ha.isForm_lt (hr n hn))]
    exact hlaw n hn
  form_self _ _ := trivial
  both_self {_ m} ha _ n hn _ _ := by
    cases hn
    exact restricts_self (ha.proper m).required

theorem upheld_restricting : Upheld (restricting P) where
  form _ _ _ := trivial
  both ha _ _ _ hj _ hn hanyx hanyy :=
    (hn ▸ hj : BothJoined _ _ _ _ (some _)).restricts ha.toWellFormed hanyx hanyy

end Arena

namespace Session

variable {document : Json} {naming : Naming} {s s' : Session} {x y n : SchemaId} {calls : Nat}

/-- A conjunction, at the place of the first schema or at any other, of schemas whose normal forms
    have no alternatives: it names the properties that either form names and every closed one does,
    requires what either requires, and is closed where one of them is. -/
theorem restricts_of_conjoin (hs : Reachable document naming s) (hx : x < s.arena.next)
    (hy : y < s.arena.next)
    (hrun : (conjoin calls x y).run s = (.ok (some n), s') ∨
      ∃ place, (conjoinAt calls x y place).run s = (.ok (some n), s')) :
    ∃ nx ny, s'.arena.progress.get? x = some (.done (some nx)) ∧
      s'.arena.progress.get? y = some (.done (some ny)) ∧
      ((s'.arena.schema nx).anyOf = [] → (s'.arena.schema ny).anyOf = [] →
        Arena.Restricts (s'.arena.schema nx) (s'.arena.schema ny) (s'.arena.schema n)) := by
  have hL := Arena.upheld_restricting (P := fun _ => True)
  have hlawful := hs.lawful hL hereditary_true trivial
  have hjoined : Arena.Joined (Arena.restricting fun _ => True) s'.arena x y (some n) := by
    rcases hrun with hrun | ⟨place, hrun⟩
    · exact ((keeps_conjoin hL hlawful calls hx hy).of_ok hrun).2
    · exact ((keeps_conjoinAt hL hlawful calls hx hy place).of_ok hrun).2
  cases hjoined with
  | forms hnx hny _ _ hlaw => exact ⟨_, _, hnx, hny, hlaw n rfl⟩

/-- A closed object and an open one, which names and requires one property more. -/
def closedAndOpen : Json :=
  .obj [("closed", .obj [("type", .str "object"), ("additionalProperties", .bool false),
      ("properties", .obj [("x", .obj [("type", .str "string")])])]),
    ("open", .obj [("type", .str "object"), ("required", .arr [.str "y"]),
      ("properties", .obj [("y", .obj []), ("x", .obj [])])])]

def closedLoaded : Session :=
  ((answer closedAndOpen .marked 1 (.load (Pointer.root.push "closed"))).run .empty).2

/-- The session that has loaded both. -/
def sidesLoaded : Session :=
  ((answer closedAndOpen .marked 1 (.load (Pointer.root.push "open"))).run closedLoaded).2

theorem reachable_sidesLoaded : Reachable closedAndOpen .marked sidesLoaded :=
  .tail (.single (step_ask (.load (Pointer.root.push "closed")) 1 (by simp [Request.ids])))
    (step_ask (.load (Pointer.root.push "open")) 1 (by simp [Request.ids]))

/-- The session that has been asked for their conjunction. -/
def sidesConjoined : Session := ((conjoin 4 2 0).run sidesLoaded).2

theorem run_conjoin_sidesLoaded : (conjoin 4 2 0).run sidesLoaded = (.ok (some 9), sidesConjoined) :=
  Work.run_eq_of_toOption (by decide +kernel)

/-- The conjunction of the open object with the closed one names `x` alone and still requires
    `y`. -/
theorem restricts_closedAndOpen :
    (∀ k, (sidesConjoined.arena.schema 9).properties.contains k = true ↔ k = "x") ∧
      (sidesConjoined.arena.schema 9).required.elements = ["y"] ∧
      Arena.isClosed (sidesConjoined.arena.schema 9) = true := by
  have hlt : 2 < sidesLoaded.arena.next ∧ 0 < sidesLoaded.arena.next := by decide +kernel
  obtain ⟨nx, ny, hnx, hny, hrestricts⟩ := restricts_of_conjoin reachable_sidesLoaded hlt.1 hlt.2
    (.inl run_conjoin_sidesLoaded)
  have hopen : sidesConjoined.arena.progress.get? 2 = some (.done (some 5)) := by decide +kernel
  have hclosed : sidesConjoined.arena.progress.get? 0 = some (.done (some 6)) := by decide +kernel
  cases hopen.symm.trans hnx
  cases hclosed.symm.trans hny
  have hkeys : (sidesConjoined.arena.schema 5).properties.keys = ["y", "x"] ∧
      (sidesConjoined.arena.schema 6).properties.keys = ["x"] := by decide +kernel
  have hextras : Arena.isClosed (sidesConjoined.arena.schema 5) = false ∧
      Arena.isClosed (sidesConjoined.arena.schema 6) = true := by decide +kernel
  obtain ⟨names, required, closed⟩ := hrestricts (by decide +kernel) (by decide +kernel)
  refine ⟨fun k => ?_, required ▸ by decide +kernel, closed (.inr hextras.2)⟩
  rw [names k, Dict.contains_iff, Dict.contains_iff, hkeys.1, hkeys.2]
  simp +contextual [hextras]

end Session

end ApiModel
