/-
  ApiModel.Proofs.Schema.Intersection

  What the conjunction of two loaded schemas accepts, as a session answers it. No value is lost or
  gained by the way in which child schemas are reused, put off or merged; what can be lost is lost to
  child schemas that exclude each other, and asking for their conjunction shows it.
-/
import ApiModel.Proofs.Schema.Parts
import ApiModel.Proofs.Schema.Settled

namespace ApiModel.Session

variable {document : Json} {naming : Naming} {s s' : Session} {x y c d : SchemaId} {calls : Nat}
  {r : Option SchemaId}

/-- What is on record as excluded is answered so, at some place. -/
theorem run_conjoinAt_of_excluded (h : Arena.Excluded s.arena c d) :
    ∃ place, ((conjoinAt 2 c d place).run s).1 = .ok none := by
  have hrun : ∀ place, ((conjoinAt 2 c d place).run s).1 =
      ((Arena.conjoin (Arena.solve 1) c d place).run s.arena).1 := fun _ => rfl
  have hdone : ∀ {z fz}, s.arena.progress.get? z = some (.done fz) →
      (Arena.solve 1 (.normalize z)).run s.arena = (.ok fz, s.arena) :=
    fun hz => Arena.run_solve_of_done hz 0
  -- either side without a normal form, or forms whose conjunction is remembered as nothing
  cases h with
  | left hc =>
      refine ⟨.root, ?_⟩
      rw [hrun, Arena.conjoin, Work.run_bind, hdone hc]
      rfl
  | right hc hd =>
      refine ⟨.root, ?_⟩
      rw [hrun, Arena.conjoin, Work.run_bind, hdone hc]
      dsimp only
      rw [Work.run_bind, hdone hd]
      rfl
  | @forms nc nd place hc hd hne hnone =>
      refine ⟨place, ?_⟩
      rw [hrun, Arena.conjoin, Work.run_bind, hdone hc]
      dsimp only
      rw [Work.run_bind, hdone hd]
      dsimp only
      rw [if_neg hne, Work.run_bind, Work.run_view]
      dsimp only
      rw [hnone]
      rfl

/-- Whatever the conjunction of two loaded schemas accepts, both accept. What both accept, the
    conjunction accepts, if there is a conjunction wherever two different child schemas are conjoined
    on the way; so there is no conjunction then only if there is no such value. The schemas lead to no
    combinators, and keys are distinct in every value that is read. -/
theorem conjoin_meaning (rd : Reading) (hd : document.Distinct)
    (hs : Reachable document naming s) (hx : s.Loaded x) (hy : s.Loaded y)
    (hbx : s.arena.Bare x) (hby : s.arena.Bare y)
    (hrun : (conjoin calls x y).run s = (.ok r, s')) {v : Json} (hv : v.Distinct) :
    (∀ n, r = some n → Arena.Accepts rd s'.arena n v →
      Arena.Accepts rd s.arena x v ∧ Arena.Accepts rd s.arena y v) ∧
    ((∀ c d, Relation.TransGen s.arena.Opposes (x, y) (c, d) →
        ∀ calls place, ((conjoinAt calls c d place).run s').1 ≠ .ok none) →
      Arena.Accepts rd s.arena x v → Arena.Accepts rd s.arena y v →
      ∃ n, r = some n ∧ Arena.Accepts rd s'.arena n v) := by
  have hL := Arena.upheld_partsLaw rd
  have hlawful := hs.lawful hL hereditary_distinct hd
  have hwf := hlawful.arena.toWellFormed
  obtain ⟨hltx, -⟩ := hlawful.raw_of_loaded hx
  obtain ⟨hlty, -⟩ := hlawful.raw_of_loaded hy
  obtain ⟨⟨hlawful', hfollows⟩, hjoined⟩ :=
    (keeps_conjoin hL hlawful calls hltx hlty).of_ok hrun
  have hgrows := hfollows.arena
  have hmeet := (hjoined.meet hlawful'.arena (hgrows.bare x hltx hbx) (hgrows.bare y hlty hby)
    hv).congr (fun h => h) Iff.rfl (hgrows.accepts_iff hwf hltx) (hgrows.accepts_iff hwf hlty)
  refine ⟨?_, fun hno hax hay => hmeet.complete ?_ hax hay⟩
  · rintro n rfl hacc
    exact hmeet.sound (Arena.met_some.2 hacc)
  -- a clash on record would be answered, against the assumption
  · rintro ⟨⟨c, d⟩, hq, hexcluded⟩
    have hq' := (Arena.opposes_iff_of_grows hwf hgrows hltx hlty).1 hq
    obtain ⟨place, hplace⟩ := run_conjoinAt_of_excluded hexcluded
    exact hno c d hq' 2 place hplace

/-- Two schemas without child schemas have a conjunction if they have a value in common. -/
theorem conjoinAt_ne_none {rd : Reading} (hs : s.Lawful (Arena.partsLaw rd))
    (hc : c < s.arena.next) (hd : d < s.arena.next) (hbc : s.arena.Bare c) (hbd : s.arena.Bare d)
    (hlinks : (s.arena.schema c).links = []) {v : Json} (hv : v.Distinct)
    (hac : Arena.Accepts rd s.arena c v) (had : Arena.Accepts rd s.arena d v) (place : Pointer) :
    ((conjoinAt calls c d place).run s).1 ≠ .ok none := by
  intro hnone
  have hL := Arena.upheld_partsLaw rd
  have hwf := hs.arena.toWellFormed
  have hrun : (conjoinAt calls c d place).run s =
      (.ok none, ((conjoinAt calls c d place).run s).2) := by rw [← hnone]
  obtain ⟨⟨hlawful, hfollows⟩, hjoined⟩ := (keeps_conjoinAt hL hs calls hc hd place).of_ok hrun
  have hgrows := hfollows.arena
  refine Arena.not_met_none ((hjoined.meet hlawful.arena (hgrows.bare c hc hbc)
    (hgrows.bare d hd hbd) hv).complete ?_ ((hgrows.accepts_iff hwf hc).2 hac)
    ((hgrows.accepts_iff hwf hd).2 had))
  rintro ⟨q, hq, -⟩
  have hq' := (Arena.opposes_iff_of_grows hwf hgrows hc hd).1 hq
  obtain ⟨o, ho, -⟩ := Relation.TransGen.head'_iff.1 hq'
  have hmem := ho.1.mem_links.1
  rw [hlinks] at hmem
  cases hmem

/-- A named property against a schema for all properties. -/
def integersAndNumbers : Json :=
  .obj [("left", .obj [("properties", .obj [("k", .obj [("type", .str "integer")])])]),
    ("right", .obj [("additionalProperties", .obj [("type", .str "number")])])]

theorem distinct_integersAndNumbers : integersAndNumbers.Distinct := by
  simp [integersAndNumbers]

def leftLoaded : Session :=
  ((answer integersAndNumbers .marked 1 (.load (Pointer.root.push "left"))).run .empty).2

/-- The session that has loaded both schemas. -/
def bothLoaded : Session :=
  ((answer integersAndNumbers .marked 1 (.load (Pointer.root.push "right"))).run leftLoaded).2

theorem reachable_bothLoaded : Reachable integersAndNumbers .marked bothLoaded :=
  .tail (.single (step_ask (.load (Pointer.root.push "left")) 1 (by simp [Request.ids])))
    (step_ask (.load (Pointer.root.push "right")) 1 (by simp [Request.ids]))

theorem bare_bothLoaded : ∀ id < 4, bothLoaded.arena.Bare id := by
  have hmembers : ∀ id < 4, (bothLoaded.arena.schema id).members = [] := by decide +kernel
  have hlinks : ∀ id < 4, ∀ c ∈ (bothLoaded.arena.schema id).links, c < 4 := by decide +kernel
  intro id hid y hy
  have hlt : y < 4 := by
    induction hy with
    | refl => exact hid
    | tail _ hxy ih => exact hlinks _ ih _ hxy
  exact hmembers y hlt

/-- A schema of some number kinds accepts the numbers of these kinds. -/
theorem accepts_number {rd : Reading} {t : Arena} {m : Number} {ks : KindSet} {p : Pointer}
    (hx : (t.schema x).Proper Json.Distinct t.next) (hm : (t.schema x).members = [])
    (hsame : (t.schema x).sameDemands (Arena.kindsAlone p ks) = true)
    (hks : ks.number = true → ks.integer = true) (hv : ks.accepts (.num m) = true) :
    Arena.Accepts rd t x (.num m) := by
  have hproper : (Arena.kindsAlone p ks).Proper Json.Distinct t.next :=
    (Arena.storable_kindsAlone (a := t) p hks).proper
  rw [Arena.accepts_iff_fulfils hm, Arena.fulfils_of_sameDemands hsame hx hproper]
  exact ⟨Arena.admits_kindsAlone.2 hv, fun _ h => (by cases h), fun _ _ _ h => (by cases h)⟩

/-- The schemas of the property and of all properties are the only ones to be conjoined. -/
theorem opposes_bothLoaded {q : SchemaId × SchemaId}
    (hq : Relation.TransGen bothLoaded.arena.Opposes (0, 2) q) : q = (1, 3) := by
  have hlinks : (bothLoaded.arena.schema 0).links = [1] ∧
      (bothLoaded.arena.schema 2).links = [3] ∧ (bothLoaded.arena.schema 1).links = [] := by
    decide +kernel
  induction hq with
  | single h =>
      obtain ⟨hc, hd⟩ := h.1.mem_links
      rw [hlinks.1, List.mem_singleton] at hc
      rw [hlinks.2.1, List.mem_singleton] at hd
      exact Prod.ext hc hd
  | tail _ h ih =>
      rw [ih] at h
      have hc := h.1.mem_links.1
      rw [hlinks.2.2] at hc
      cases hc

/-- Five is an integer and a number. -/
theorem accepts_five (hs : bothLoaded.arena.WellFormed Json.Distinct) :
    Arena.Accepts .lenient bothLoaded.arena 1 (.num (.int 5)) ∧
      Arena.Accepts .lenient bothLoaded.arena 3 (.num (.int 5)) := by
  have hinteger : (bothLoaded.arena.schema 1).sameDemands
      (Arena.kindsAlone .root (.ofList [.integer])) = true := by decide +kernel
  have hnumber : (bothLoaded.arena.schema 3).sameDemands
      (Arena.kindsAlone .root (.ofList [.number, .integer])) = true := by decide +kernel
  constructor
  · exact accepts_number (hs.proper 1) (bare_bothLoaded 1 (by decide)).members hinteger (by decide)
      (by decide)
  · exact accepts_number (hs.proper 3) (bare_bothLoaded 3 (by decide)).members hnumber (by decide)
      (by decide)

/-- The session that has been asked for the conjunction. -/
def conjoined : Session := ((conjoin 4 0 2).run bothLoaded).2

theorem run_conjoin_bothLoaded : (conjoin 4 0 2).run bothLoaded = (.ok (some 8), conjoined) :=
  Work.run_eq_of_toOption (by decide +kernel)

/-- Five is in the way of excluding the integers by the numbers. -/
theorem conjoinAt_conjoined_ne_none (calls : Nat) (place : Pointer) :
    ((conjoinAt calls 1 3 place).run conjoined).1 ≠ .ok none := by
  have hL := Arena.upheld_partsLaw .lenient
  have hlawful := reachable_bothLoaded.lawful hL hereditary_distinct distinct_integersAndNumbers
  have hwf := hlawful.arena.toWellFormed
  have hlt : ∀ id < 4, id < bothLoaded.arena.next := by decide +kernel
  obtain ⟨⟨hlawful', hstays⟩, -⟩ := (keeps_conjoin hL hlawful 4 (hlt 0 (by decide))
    (hlt 2 (by decide))).of_ok run_conjoin_bothLoaded
  have hgrows := hstays.arena
  have hbare : ∀ id < 4, conjoined.arena.Bare id := fun id hid =>
    hgrows.bare id (hlt id hid) (bare_bothLoaded id hid)
  have hlinks : (conjoined.arena.schema 1).links = [] := by decide +kernel
  obtain ⟨hinteger, hnumber⟩ := accepts_five hwf
  have hinteger' := (hgrows.accepts_iff hwf (hlt 1 (by decide))).2 hinteger
  have hnumber' := (hgrows.accepts_iff hwf (hlt 3 (by decide))).2 hnumber
  exact conjoinAt_ne_none hlawful' (Nat.lt_of_lt_of_le (hlt 1 (by decide)) hgrows.next)
    (Nat.lt_of_lt_of_le (hlt 3 (by decide)) hgrows.next) (hbare 1 (by decide))
    (hbare 3 (by decide)) hlinks (.num _) hinteger' hnumber' place

theorem conjoin_integersAndNumbers :
    Arena.Accepts .lenient ((conjoin 4 0 2).run bothLoaded).2.arena 8
      (.obj [("k", .num (.int 5))]) ↔
    Arena.Accepts .lenient bothLoaded.arena 0 (.obj [("k", .num (.int 5))]) ∧
      Arena.Accepts .lenient bothLoaded.arena 2 (.obj [("k", .num (.int 5))]) := by
  have hleft : bothLoaded.Loaded 0 := ⟨Pointer.root.push "left", 0, by decide +kernel, .refl⟩
  have hright : bothLoaded.Loaded 2 := ⟨Pointer.root.push "right", 2, by decide +kernel, .refl⟩
  have hvalue : Json.Distinct (.obj [("k", .num (.int 5))]) :=
    .obj (by simp) (by simp [Json.Distinct.num])
  obtain ⟨hsound, hcomplete⟩ := conjoin_meaning .lenient distinct_integersAndNumbers
    reachable_bothLoaded hleft hright (bare_bothLoaded 0 (by decide))
    (bare_bothLoaded 2 (by decide)) run_conjoin_bothLoaded hvalue
  have hjoins : ∀ c d, Relation.TransGen bothLoaded.arena.Opposes (0, 2) (c, d) →
      ∀ calls place, ((conjoinAt calls c d place).run conjoined).1 ≠ .ok none := by
    intro c d hcd calls place
    cases opposes_bothLoaded hcd
    exact conjoinAt_conjoined_ne_none calls place
  refine ⟨hsound 8 rfl, fun h => ?_⟩
  obtain ⟨n, hn, hacc⟩ := hcomplete hjoins h.1 h.2
  cases hn
  exact hacc

end ApiModel.Session
