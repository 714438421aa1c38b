/-
  ApiModel.Proofs.Schema.Located

  The same schemas of a document in different sessions. Loading gives a schema the name of its place,
  and normalizing adds no schema of the document, so what has been loaded says the same in terms of
  these names wherever and whenever it was loaded. A schema without a normal form in one session is
  in no bundle that cannot be refuted, and one with a normal form in another session is in such a
  bundle if what was put off there has been worked out; so it cannot be the same one.
-/
import ApiModel.Proofs.Schema.Chart
import ApiModel.Proofs.Schema.Request
import ApiModel.Proofs.Schema.WorkedOut

namespace ApiModel.Session

open Arena (Labels Extends Named named_id Contents Recorded Several Unrestricted)
open Document Work
open Relation (ReflTransGen)

variable {document : Json} {V : Survey document} {ℓ ℓ' : Labels} {s t s' t' u : Session}
  {p : Pointer} {id id' x n w : SchemaId} {naming : Naming} {calls calls' : Nat}

/-! ## Steps of a session -/

theorem reads_load {L : Arena.Law fun _ : Json => True} (h : s.Lawful L)
    (hrun : (load document p).run s = (.ok id, t)) :
    (Readable (fun _ => True) (Loadable s) s.arena.next t ∧ Loads s.arena.next s t) ∧
      Known (Loadable s) t id ∧ t.loaded.get? p = some id :=
  (reader_load (fun _ h => .inl h) hereditary_true trivial p s h.readable (Nat.le_refl _)).of_ok hrun

/-- What is loaded is of the document. -/
theorem raw_of_loads {L : Arena.Law fun _ : Json => True} {i : SchemaId} (h : s.Lawful L)
    (hloads : Loads s.arena.next s t) (hle : s.arena.next ≤ i) : t.arena.Raw i := by
  obtain ⟨schemas, loaded, warnings, rfl⟩ := hloads.rest
  exact h.arena.raw_of_le hle

/-- Pointers lead to the same schemas when more have been stored. -/
theorem Charted.onArena {a : Arena} (h : Charted V s.arena.next [] ℓ s)
    (hinj : ∀ i j, i < a.next → j < a.next → ℓ' i = ℓ' j → i = j)
    (honward : Onward ℓ s ℓ' { s with arena := a })
    (hform : ∀ i, s.arena.next ≤ i → i < a.next → V.names.IsForm (ℓ' i)) :
    Charted V a.next [] ℓ' { s with arena := a } := by
  have hold : ∀ {i site}, i < a.next → ℓ' i = V.name site → i < s.arena.next ∧ ℓ i = V.name site :=
    fun {i site} hi hsite => by
      rcases Nat.lt_or_ge i s.arena.next with hlt | hle
      · exact ⟨hlt, (honward.ext i hlt).symm.trans hsite⟩
      · exact absurd (hsite ▸ hform i hle hi) (V.raw site)
  refine ⟨⟨fun p id hp => honward.carry (h.loaded p id hp), hinj, fun i q hi hq => ?_,
    fun i hle hi => absurd hi (Nat.not_lt.2 hle), nofun⟩, fun i q hi hq => ?_⟩
  · obtain ⟨hlt, hq⟩ := hold hi hq
    exact h.value i q hlt hq
  · rcases hq with hq | hq
    · obtain ⟨hlt, hq⟩ := hold hi hq
      exact h.split i q hlt (.inl hq)
    · obtain ⟨hlt, hq⟩ := hold hi hq
      exact h.split i q hlt (.inr hq)

theorem charted_empty (V : Survey document) (ℓ : Labels) :
    Charted V Session.empty.arena.next [] ℓ .empty where
  loaded _ _ h := by simp [Session.empty] at h
  inj i _ hi := (Nat.not_lt_zero i hi).elim
  value i _ hi := (Nat.not_lt_zero i hi).elim
  site i _ hi := (Nat.not_lt_zero i hi).elim
  numbered _ hq := by cases hq
  split i _ hi := (Nat.not_lt_zero i hi).elim

/-! ## Names of places -/

/-- The schemas of the document have the names of their places, and say what these say; what was
    made is numbered apart from them. -/
structure Located (V : Survey document) (ℓ : Labels) (s : Session) : Prop where
  lawful : s.Lawful Arena.Law.free
  charted : Charted V s.arena.next [] ℓ s
  site : ∀ i, i < s.arena.next → s.arena.Raw i → ∃ site, ℓ i = V.name site ∧
    Named ℓ s.arena (s.arena.schema i) (siteSchema document V.name site)
  made : ∀ i, i < s.arena.next → ¬s.arena.Raw i →
    ℓ i = V.names.stored (.own 0 .base i) (.blank .root)

theorem located_empty (V : Survey document) (ℓ : Labels) : Located V ℓ .empty where
  lawful := lawful_empty _
  charted := charted_empty V ℓ
  site i hi := (Nat.not_lt_zero i hi).elim
  made i hi := (Nat.not_lt_zero i hi).elim

/-- What is loaded gets the name of the place where its pointer leads. -/
theorem Located.load (h : Located V ℓ s) (hrun : (Session.load document p).run s = (.ok id, t)) :
    ∃ ℓ', Located V ℓ' t ∧ id < t.arena.next ∧ t.arena.Raw id ∧
      ℓ' id = nameAt document V.name p := by
  obtain ⟨⟨hreadable, hloads⟩, hid, hloaded⟩ := reads_load h.lawful hrun
  obtain ⟨ℓ', honward, hcharted, hname⟩ :=
    (guiding_load V s.arena.next p [] ℓ s h.charted).of_ok hrun
  obtain ⟨hlawful, hfollows, -⟩ := h.lawful.of_loads hreadable hloads
  refine ⟨ℓ', ⟨hlawful, { hcharted with
    site := fun i hle hi => absurd hi (Nat.not_lt.2 hle) }, fun i hi hraw => ?_, fun i hi hraw => ?_⟩,
    hid.1, (hlawful.loaded p id hloaded).2, (named_id.1 hname).2.symm⟩
  · rcases Nat.lt_or_ge i s.arena.next with hlt | hle
    · obtain ⟨site, hsite, hcontent⟩ := h.site i hlt ((hfollows.arena.raw_iff hlt).1 hraw)
      rw [hloads.schema i hlt]
      exact ⟨site, (honward.ext i hlt).trans hsite, honward.carry hcontent⟩
    · obtain ⟨site, hsite, ⟨q, hq, -⟩ | hcontent⟩ := hcharted.site i hle hi
      · cases hq
      · exact ⟨site, hsite, hcontent⟩
  -- what is new is of the document
  · have hlt : i < s.arena.next := Nat.lt_of_not_le fun hle => hraw (raw_of_loads h.lawful hloads hle)
    exact (honward.ext i hlt).trans (h.made i hlt fun hr => hraw ((hfollows.arena.raw_iff hlt).2 hr))

/-- What is made by a normalization is numbered apart, whatever comes of it. -/
theorem Located.normalize (h : Located V ℓ s) (hid : id < s.arena.next) {calls : Nat}
    {out : Except Failure (Option SchemaId)}
    (hrun : (Session.normalize calls id).run s = (out, t)) :
    ∃ ℓ', Located V ℓ' t ∧ Extends s.arena ℓ ℓ' := by
  have hkeeps := (keeps_normalize Arena.upheld_free h.lawful calls hid).final
  rw [hrun] at hkeeps
  obtain ⟨hlawful, hderives, -⟩ := hkeeps
  have hgrows := hderives.arena
  let ℓ' : Labels := fun i =>
    if i < s.arena.next then ℓ i else V.names.stored (.own 0 .base i) (.blank .root)
  have hext : Extends s.arena ℓ ℓ' := fun i hi => if_pos hi
  have hnew : ∀ {i}, s.arena.next ≤ i → ℓ' i = V.names.stored (.own 0 .base i) (.blank .root) :=
    fun hle => if_neg (Nat.not_lt.2 hle)
  -- new names are those of what was made, under their numbers
  have hmade : ∀ i, i < t.arena.next → ¬t.arena.Raw i →
      ℓ' i = V.names.stored (.own 0 .base i) (.blank .root) := by
    intro i hi hraw
    rcases Nat.lt_or_ge i s.arena.next with hlt | hle
    · exact (hext i hlt).trans (h.made i hlt fun hr => hraw ((hgrows.raw_iff hlt).2 hr))
    · exact hnew hle
  have harena : t = { s with arena := t.arena } := by
    unfold Session.normalize Session.onArena at hrun
    rw [run_focus] at hrun
    cases hrun
    rfl
  have hinj : ∀ i j, i < t.arena.next → j < t.arena.next → ℓ' i = ℓ' j → i = j := by
    have hnumber : ∀ {i j}, s.arena.next ≤ i → j < t.arena.next → ℓ' i = ℓ' j → i = j := by
      intro i j hle hj hij
      by_cases hraw : t.arena.Raw j
      · have hlt := hderives.raw j hj hraw
        obtain ⟨site, hsite, -⟩ := h.site j hlt ((hgrows.raw_iff hlt).1 hraw)
        rw [hnew hle, hext j hlt, hsite] at hij
        exact absurd ⟨_, _, hij.symm⟩ (V.raw site)
      · rw [hnew hle, hmade j hj hraw] at hij
        cases V.names.origin_inj hij
        rfl
    intro i j hi hj hij
    rcases Nat.lt_or_ge i s.arena.next with hlt | hle
    · rcases Nat.lt_or_ge j s.arena.next with hlt' | hle'
      · rw [hext i hlt, hext j hlt'] at hij
        exact h.charted.inj i j hlt hlt' hij
      · exact (hnumber hle' hi hij.symm).symm
    · exact hnumber hle hj hij
  refine ⟨ℓ', ⟨hlawful, ?_, fun i hi hraw => ?_, hmade⟩, hext⟩
  · rw [harena]
    refine h.charted.onArena hinj ⟨hext, hgrows.next⟩ fun i hle _ => ?_
    rw [hnew hle]
    exact V.names.isForm_stored _ _
  · have hlt := hderives.raw i hi hraw
    obtain ⟨site, hsite, hcontent⟩ := h.site i hlt ((hgrows.raw_iff hlt).1 hraw)
    rw [hgrows.schema i hlt]
    exact ⟨site, (hext i hlt).trans hsite, Arena.named_mono hcontent hgrows.next hext⟩

/-- The schemas of the document say what is on record of their places. -/
theorem Located.recorded (h : Located V ℓ s) : Recorded V.names.content ℓ s.arena where
  inj x y hx hy _ _ := h.charted.inj x y hx hy
  content x hx hraw := by
    obtain ⟨site, hsite, hcontent⟩ := h.site x hx hraw
    rw [hsite, V.content]
    exact hcontent.eq

/-! ## The same schema in two sessions -/

/-- A schema of the document, by the name `w`, in a session that has been reached. -/
structure Found (V : Survey document) (naming : Naming) (ℓ : Labels) (s : Session)
    (id w : SchemaId) : Prop where
  located : Located V ℓ s
  reachable : Reachable document naming s
  lt : id < s.arena.next
  raw : s.arena.Raw id
  name : ℓ id = w

theorem Located.found (h : Located V ℓ s) (hs : Reachable document naming s)
    (hrun : (Session.load document p).run s = (.ok id, t)) :
    ∃ ℓ', Found V naming ℓ' t id (nameAt document V.name p) := by
  obtain ⟨ℓ', hlocated, hlt, hraw, hname⟩ := h.load hrun
  have hst : Step document naming s ((Session.load document p).run s).2 := step_load s p
  rw [hrun] at hst
  exact ⟨ℓ', hlocated, hs.tail hst, hlt, hraw, hname⟩

/-- All that a schema of the document leads to is of the document, and there it is on record. -/
theorem Found.onward (h : Found V naming ℓ s id w) (hx : ReflTransGen s.arena.Link id x) :
    x < s.arena.next ∧ s.arena.Raw x ∧ V.names.content (ℓ x) = (s.arena.schema x).rename ℓ := by
  have hlt := h.located.lawful.arena.reach_lt h.lt hx
  have hraw := h.located.lawful.arena.raw_reach h.raw hx
  exact ⟨hlt, hraw, h.located.recorded.content x hlt hraw⟩

/-- What a schema leads to goes by the same names in every session. -/
theorem Found.reach (h : Found V naming ℓ s id w) (h' : Found V naming ℓ' s' id' w)
    (hx : ReflTransGen s'.arena.Link id' x) :
    ∃ y, ReflTransGen s.arena.Link id y ∧ ℓ y = ℓ' x := by
  induction hx with
  | refl => exact ⟨id, .refl, h.name.trans h'.name.symm⟩
  | @tail x z hx hxz ih =>
      obtain ⟨y, hy, hyx⟩ := ih
      have hz : ℓ' z ∈ ((s.arena.schema y).rename ℓ).links := by
        rw [← (h.onward hy).2.2, hyx, (h'.onward hx).2.2, Schema.links_rename]
        exact List.mem_map_of_mem hxz
      rw [Schema.links_rename] at hz
      obtain ⟨c, hc, hcz⟩ := List.mem_map.1 hz
      exact ⟨c, hy.tail hc, hcz⟩

/-- Whether all that a schema leads to leaves unnamed properties alone is the same in every
    session. -/
theorem Found.unrestricted (h : Found V naming ℓ s id w) (h' : Found V naming ℓ' s' id' w)
    (hplain : ∀ x, ReflTransGen s.arena.Link id x → Unrestricted (s.arena.schema x).extras)
    (hx : ReflTransGen s'.arena.Link id' x) : Unrestricted (s'.arena.schema x).extras := by
  obtain ⟨y, hy, hyx⟩ := h.reach h' hx
  rw [← Arena.unrestricted_rename ℓ', ← (h'.onward hx).2.2, ← hyx, (h.onward hy).2.2,
    Arena.unrestricted_rename]
  exact hplain y hy

theorem several_of_reachable (h : Reachable document naming s) : s.arena.Several :=
  Arena.several_of_shares (sharesOn_of_later h Arena.shares_empty).1

/-- A schema that has no normal form in one session has none in another one in which the
    conjunctions put off within it have been worked out. -/
theorem Found.not_some (hd : document.Distinct) (h : Found V naming ℓ s id w)
    (hrun : (Session.normalize calls id).run s = (.ok none, t)) (h' : Found V naming ℓ' s' id' w)
    (hrun' : (Session.normalize calls' id').run s' = (.ok (some n), t'))
    (hplain : ∀ x, ReflTransGen s'.arena.Link id' x → Unrestricted (s'.arena.schema x).extras)
    (hlater : Later document naming t' u)
    (hworked : u.arena.WorkedOut {x | ReflTransGen s'.arena.Link id' x}) : False := by
  let R := {x | ReflTransGen s'.arena.Link id' x}
  have hstep : Step document naming s t := by simpa only [hrun] using step_normalize h.lt calls
  have hstep' : Step document naming s' t' := by
    simpa only [hrun'] using step_normalize h'.lt calls'
  -- where there is a normal form, there is a bundle
  have hA := Arena.upheld_attestation R
  obtain ⟨⟨hlawful', hstays'⟩, hform'⟩ :=
    (keeps_normalize hA (h'.reachable.lawful hA hereditary_distinct hd) calls' h'.lt).of_ok hrun'
  obtain ⟨hu, hgrows'⟩ := lawful_of_later hA hereditary_distinct hd hlawful' hlater
  have hgrows : s'.arena.Grows u.arena := hstays'.arena.trans hgrows'
  have hcontent : ∀ x ∈ R, V.names.content (ℓ' x) = (u.arena.schema x).rename ℓ' := by
    intro x hx
    obtain ⟨hlt, -, hcontent⟩ := h'.onward hx
    rw [hgrows.schema x hlt]
    exact hcontent
  have henclosed : Arena.Enclosed R u.arena id' := by
    rintro ⟨x, hx, hstray⟩
    rw [Arena.reach_iff h'.located.lawful.arena.toWellFormed hgrows.schema h'.lt] at hx
    rw [hgrows.schema x (h'.onward hx).1] at hstray
    exact hstray.elim (fun hno => hno (hplain x hx)) fun hno => hno.2 hx
  have hreachable : Reachable document naming u := (h'.reachable.tail hstep').trans hlater
  have hM := hreachable.lawful (Arena.upheld_merging R) hereditary_distinct hd
  obtain ⟨W, hW, hidW⟩ := Arena.exists_tenable hcontent hu.arena hM.arena
    (several_of_reachable hreachable) hworked ((hgrows.raw_iff h'.lt).2 h'.raw) henclosed
    ⟨n, hgrows'.done _ _ hform'⟩
  -- so there is a normal form in the other session as well
  obtain ⟨ℓ₁, hlocated, hext⟩ := h.located.normalize h.lt hrun
  have hG := Arena.upheld_grounding V.names.content ℓ₁
  obtain ⟨⟨hlawful, hstays⟩, hform⟩ :=
    (keeps_normalize hG (h.reachable.lawful hG hereditary_distinct hd) calls h.lt).of_ok hrun
  have hsupports : Arena.Supports V.names.content ℓ₁ t.arena W id := by
    refine Arena.supports_of_raw ((hstays.arena.raw_iff h.lt).2 h.raw) ?_
    rwa [hext id h.lt, h.name, ← h'.name]
  obtain ⟨m, hm, -⟩ := hlawful.arena.forms _ _ hform (several_of_reachable (h.reachable.tail hstep))
    hlocated.recorded W hW hsupports
  cases hm

end ApiModel.Session
