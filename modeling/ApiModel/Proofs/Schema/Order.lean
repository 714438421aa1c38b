/-
  ApiModel.Proofs.Schema.Order

  Whether a schema has a normal form does not depend on what was normalized before, as long as no
  conjunction is put off within it. Under names that do not depend on the order of requests, each
  answer about schemas that it leads to is the one that the functions without a memo give; what else
  the document has is left out of account. Where conjunctions are put off within it, it is not
  without a normal form in one case and has one in the other case, as long as those can be worked out
  afterwards and nothing is asked of properties that have no name. None of this can be left out: for
  each condition there is a document in which the order matters.
-/
import ApiModel.Proofs.Schema.Aside
import ApiModel.Proofs.Schema.Chart
import ApiModel.Proofs.Schema.Located
import ApiModel.Proofs.Schema.Retry
import ApiModel.Proofs.Schema.Session

namespace ApiModel

open Mentions (ids)
open Relation (ReflTransGen)

namespace Arena

/-! ## What is left out of account -/

variable {P : Json → Prop} {R : Set SchemaId} {a b : Arena} {x : SchemaId}

/-- The schemas of the document that are not in `R`. -/
def outside (a : Arena) (R : Set SchemaId) : Set SchemaId :=
  {z | z < a.next ∧ a.Raw z ∧ z ∉ R}

/-- No conjunction has been put off within `R`: each leads to something else of the document. -/
def PromptWithin (R : Set SchemaId) (a : Arena) : Prop :=
  ∀ d, a.operands.get? d ≠ none → ∃ z, ReflTransGen a.Link d z ∧ a.Raw z ∧ z ∉ R

theorem promptWithin_of_isEmpty (h : a.operands.isEmpty = true) : a.PromptWithin R :=
  fun d hd => absurd (prompt_of_isEmpty h d) hd

theorem PromptWithin.promptBut (ha : a.WellFormed P) (h : a.PromptWithin R) :
    a.PromptBut (a.outside R) := by
  intro d hd hinner
  obtain ⟨z, hdz, hraw, hz⟩ := h d hd
  exact hinner.apart z ⟨ha.reach_lt hinner.lt hdz, hraw, hz⟩ hdz

/-- What was put off within `R` is there for good. -/
theorem promptWithin_of_grows (ha : a.WellFormed P) (h : Grows a b) (hb : b.PromptWithin R) :
    a.PromptWithin R := by
  intro d hd
  obtain ⟨os, hos⟩ := Option.ne_none_iff_exists'.1 hd
  have hlt := (ha.operands d os hos).1
  obtain ⟨z, hdz, hraw, hz⟩ := hb d (by rwa [h.operands d hlt])
  have hdz := (reach_iff ha h.schema hlt z).1 hdz
  exact ⟨z, hdz, (h.raw_iff (ha.reach_lt hlt hdz)).1 hraw, hz⟩

theorem inner_outside (hx : x < a.next) (hR : ∀ z, ReflTransGen a.Link x z → z ∈ R) :
    Inner (a.outside R) a x :=
  ⟨hx, fun z hz hxz => hz.2.2 (hR z hxz)⟩

/-- Of the schemas that there are, the same are left out of account in a grown arena. -/
theorem mem_outside_iff (h : Grows a b) (hx : x < a.next) : x ∈ b.outside R ↔ x ∈ a.outside R :=
  and_congr (iff_of_true (Nat.lt_of_lt_of_le hx h.next) hx) (and_congr_left' (h.raw_iff hx))

end Arena

namespace Session

open Arena (Labels Extends Inner Named Held named_id named_none named_some Settles Tracks
  tracks_retry PromptWithin)
open Document Work

variable {document : Json} {V : Survey document} {R : Set SchemaId} {ℓ ℓ' : Labels}
  {s t : Session} {p q : Pointer} {id : SchemaId}

/-! ## Names between requests -/

/-- Right names for a session between requests, when the document is left out of account but for
    `R`. -/
structure Surveyed (V : Survey document) (R : Set SchemaId) (ℓ : Labels) (s : Session) : Prop where
  lawful : s.Lawful Arena.Law.traced
  tracks : Tracks (s.arena.outside R) V.names ℓ s.arena
  charted : Charted V s.arena.next [] ℓ s

theorem surveyed_empty (V : Survey document) (R : Set SchemaId) (ℓ : Labels) :
    Surveyed V R ℓ .empty where
  lawful := lawful_empty _
  tracks :=
    { inj := fun i _ hi => (Nat.not_lt_zero i hi).elim
      content := fun i hi => (Nat.not_lt_zero i hi).elim
      form := fun i hi => (Nat.not_lt_zero i hi.lt).elim
      done := fun _ _ h => by simp [Session.empty, Arena.empty] at h
      memo := fun _ _ _ _ h => by simp [Session.empty, Arena.empty] at h
      own := fun i _ _ _ _ hi => (Nat.not_lt_zero i hi).elim
      both := fun i _ _ _ _ hi => (Nat.not_lt_zero i hi).elim
      other := fun i _ _ hi => (Nat.not_lt_zero i hi).elim }
  charted := charted_empty V ℓ

theorem Surveyed.labelled (h : Surveyed V R ℓ s) :
    Arena.Labelled (s.arena.outside R) V.names ℓ s.arena :=
  ⟨h.lawful.arena, h.tracks, fun _ hz => ⟨hz.1, hz.2.1⟩⟩

/-- Right names for the schemas that there are and for those that have been read since. -/
theorem tracks_of_loads (h : Surveyed V R ℓ s) (ht : Charted V s.arena.next [] ℓ' t)
    (honward : Onward ℓ s ℓ' t) (hloads : Loads s.arena.next s t)
    (hgrows : s.arena.Grows t.arena) : Tracks (t.arena.outside R) V.names ℓ' t.arena := by
  obtain ⟨⟨schemas, loaded, warnings, hrest⟩, hnext, hschema, -⟩ := hloads
  have hprogress : t.arena.progress = s.arena.progress := by rw [hrest]
  have hconj : t.arena.conjunctions = s.arena.conjunctions := by rw [hrest]
  have hwf := h.lawful.arena.toWellFormed
  have hext := honward.ext
  -- what is new has been read somewhere
  have hnew : ∀ {i}, s.arena.next ≤ i → i < t.arena.next → ∃ site, ℓ' i = V.name site ∧
      Named ℓ' t.arena (t.arena.schema i) (siteSchema document V.name site) := fun hle hi => by
    obtain ⟨site, hsite, ⟨q, hq, -⟩ | hcontent⟩ := ht.site _ hle hi
    · cases hq
    · exact ⟨site, hsite, hcontent⟩
  -- the schemas that there were are followed as before
  have hinner : ∀ {i}, i < s.arena.next →
      (Inner (t.arena.outside R) t.arena i ↔ Inner (s.arena.outside R) s.arena i) := by
    intro i hi
    rw [Arena.inner_iff hwf hnext hschema hi]
    refine ⟨fun hin => ⟨hi, fun z hz hiz => ?_⟩, fun hin => ⟨hi, fun z hz hiz => ?_⟩⟩
    · exact hin.apart z ((Arena.mem_outside_iff hgrows hz.1).2 hz) hiz
    · exact hin.apart z ((Arena.mem_outside_iff hgrows (hwf.reach_lt hi hiz)).1 hz) hiz
  refine ⟨ht.inj, ?content, ?form, ?done, ?memo, ?own, ?both, ?other⟩
  case content =>
    intro i hi
    rcases Nat.lt_or_ge i s.arena.next with hlt | hle
    · rw [hext i hlt, h.tracks.content i hlt, hschema i hlt]
      exact Schema.schema_rename_congr fun c hc => (hext c ((hwf.proper i).links c hc)).symm
    · obtain ⟨site, hsite, hcontent⟩ := hnew hle hi
      rw [hsite, V.content]
      exact hcontent.eq
  case form =>
    intro i hi
    rw [Arena.IsForm, hprogress]
    rcases Nat.lt_or_ge i s.arena.next with hlt | hle
    · rw [hext i hlt]
      exact h.tracks.form i ((hinner hlt).1 hi)
    · obtain ⟨site, hsite, -⟩ := hnew hle hi.lt
      rw [hsite]
      exact iff_of_false (fun hform => absurd (hwf.known i _ hform) (Nat.not_lt.2 hle))
        (V.raw site)
  case done =>
    intro i r hr hi
    rw [hprogress] at hr
    have hlt := hwf.known i _ hr
    rw [hext i hlt,
      Arena.map_congr_of_lt hext fun n hn => hwf.isForm_lt (hwf.form i n (hn ▸ hr))]
    exact h.tracks.done i r hr ((hinner hlt).1 hi)
  case memo =>
    intro x y p r hr hix hiy
    rw [hconj] at hr
    obtain ⟨hx, hy, hn⟩ := hwf.memo x y p r hr
    have hlx := hwf.isForm_lt hx
    have hly := hwf.isForm_lt hy
    rw [hext x hlx, hext y hly, Arena.map_congr_of_lt hext fun n hr => hwf.isForm_lt (hn n hr)]
    exact h.tracks.memo x y p r hr ((hinner hlx).1 hix) ((hinner hly).1 hiy)
  case own =>
    intro i m part k u hi hu
    rcases Nat.lt_or_ge i s.arena.next with hlt | hle
    · have hown := h.tracks.own i m part k u hlt (hext i hlt ▸ hu)
      refine hown.imp_right (.imp_right (.imp_right ?_))
      rintro ⟨j, hj, hjm, hp⟩
      exact ⟨j, (hinner hj.lt).2 hj, (hext j hj.lt).trans hjm, hprogress ▸ hp⟩
    · obtain ⟨site, hsite, -⟩ := hnew hle hi
      exact absurd ⟨_, u, hsite.symm.trans hu⟩ (V.raw site)
  case both =>
    intro i x y p u hi hu
    rcases Nat.lt_or_ge i s.arena.next with hlt | hle
    · rcases h.tracks.both i x y p u hlt (hext i hlt ▸ hu) with hf | ⟨j, k, hj, hk, hjx, hky, hc⟩
      · exact hf.elim
      · exact .inr ⟨j, k, Nat.lt_of_lt_of_le hj hnext, Nat.lt_of_lt_of_le hk hnext,
          (hext j hj).trans hjx, (hext k hk).trans hky, hconj ▸ hc⟩
    · obtain ⟨site, hsite, -⟩ := hnew hle hi
      exact absurd ⟨_, u, hsite.symm.trans hu⟩ (V.raw site)
  case other =>
    intro i j u hi hu
    rcases Nat.lt_or_ge i s.arena.next with hlt | hle
    · exact h.tracks.other i j u hlt (hext i hlt ▸ hu)
    · obtain ⟨site, hsite, -⟩ := hnew hle hi
      exact absurd ⟨_, u, hsite.symm.trans hu⟩ (V.raw site)

/-- Loading adds names for what it reads, and the schema that is asked for has the name of its
    place. -/
theorem Surveyed.load (h : Surveyed V R ℓ s)
    (hrun : (Session.load document p).run s = (.ok id, t)) :
    ∃ ℓ', Surveyed V R ℓ' t ∧ Named ℓ' t.arena id (nameAt document V.name p) ∧
      s.arena.Grows t.arena := by
  obtain ⟨⟨hreadable, hloads⟩, -⟩ := reads_load h.lawful hrun
  obtain ⟨ℓ', honward, hcharted, hid⟩ :=
    (guiding_load V s.arena.next p [] ℓ s h.charted).of_ok hrun
  obtain ⟨hlawful, hfollows, -⟩ := h.lawful.of_loads hreadable hloads
  refine ⟨ℓ', ⟨hlawful, tracks_of_loads h hcharted honward hloads hfollows.arena, ?_⟩, hid,
    hfollows.arena⟩
  exact { hcharted with
    site := fun i hle hi => absurd hi (Nat.not_lt.2 hle) }

/-- Names for another try at all normalizations that fail. -/
noncomputable def Survey.retry (V : Survey document) : Survey document :=
  { V with names := V.names.retry }

theorem Charted.retry {n : Nat} {todo : List Pointer} (h : Charted V n todo ℓ s) :
    Charted V.retry n todo ℓ s :=
  ⟨⟨h.loaded, h.inj, h.value, h.site, h.numbered⟩, h.split⟩

/-- Between requests nothing is under normalization, so nothing can be in the way of a value. -/
theorem Lawful.idle {L : Arena.Law fun _ : Json => True} (h : s.Lawful L) {O : Set SchemaId}
    {ν : Arena.Nomenclature} {α : Type} {cx : Nat → Option α}
    (hblocked : Arena.Blocked O ν ℓ s.arena cx) (n : Nat) : cx n = none := by
  refine hblocked.resolve_right ?_ n
  rintro ⟨z, -, hz, -⟩
  rw [h.arena.pending, h.pending] at hz
  cases hz

section Normalize

variable {calls : Nat} {out : Except Failure (Option SchemaId)}

/-- A normalization adds nothing of the document to what is left out of account. -/
theorem outside_normalize (h : s.Lawful Arena.Law.traced) (hid : id < s.arena.next)
    (hrun : (normalize calls id).run s = (out, t)) :
    t.Lawful Arena.Law.traced ∧ s.arena.Grows t.arena ∧
      t.arena.outside R = s.arena.outside R := by
  have hkeeps := (keeps_normalize Arena.upheld_provenance h calls hid).final
  rw [hrun] at hkeeps
  obtain ⟨hlawful, hstays⟩ := hkeeps
  refine ⟨hlawful, hstays.arena, Set.ext fun z => ⟨fun hz => ?_, fun hz => ?_⟩⟩
  · exact (Arena.mem_outside_iff hstays.arena (hstays.raw z hz.1 hz.2.1)).1 hz
  · exact (Arena.mem_outside_iff hstays.arena hz.1).2 hz

/-- There are right names after a normalization that puts nothing off within `R`, whatever comes of
    it. -/
theorem Surveyed.normalized (h : Surveyed V R ℓ s) (hid : id < s.arena.next)
    (hrun : (normalize calls id).run s = (out, t)) (hprompt : t.arena.PromptWithin R)
    (hout : out ≠ .error .exhausted) :
    ∃ (W : Survey document) (ℓ' : Labels), Surveyed W R ℓ' t := by
  obtain ⟨hlawful, hgrows, houtside⟩ := outside_normalize (R := R) h.lawful hid hrun
  have hprompt := houtside ▸ hprompt.promptBut hlawful.arena.toWellFormed
  have hdrifts := (Arena.drifting_solve (s.arena.outside R) V.names calls).task (.normalize id)
    h.labelled hid
  have hmade : ∀ {W : Survey document} {ℓ'}, Charted W s.arena.next [] ℓ s →
      Tracks (s.arena.outside R) W.names ℓ' t.arena → Arena.Carries W.names ℓ ℓ' s.arena t.arena →
      t = { s with arena := t.arena } → Surveyed W R ℓ' t := by
    intro W ℓ' hcharted htracks hcarries ht
    refine ⟨hlawful, houtside ▸ htracks, ?_⟩
    rw [ht]
    exact hcharted.onArena htracks.inj ⟨hcarries.ext, hgrows.next⟩ hcarries.form
  unfold Session.normalize Session.onArena at hrun
  rw [run_focus] at hrun
  unfold Arena.Drifts Ends at hdrifts
  rcases harena : (Arena.solve calls (.normalize id)).run s.arena with ⟨e | r, b⟩ <;>
    rw [harena] at hrun hdrifts <;> cases hrun
  · obtain ⟨ℓ', hwreck⟩ := (hdrifts hprompt).resolve_left fun he => hout (he ▸ rfl)
    refine ⟨V.retry, ℓ', hmade h.charted.retry (tracks_retry ?_)
      ⟨hwreck.ext, hwreck.form⟩ rfl⟩
    exact hwreck.tracks.mono (fun _ _ _ h => h) fun m hm => h.lawful.idle hm
  · obtain ⟨ℓ', hcarries, htracks⟩ := hdrifts hprompt
    exact ⟨V, ℓ', hmade h.charted htracks hcarries rfl⟩

/-- What comes of a normalization that puts nothing off within `R` is a matter of the names. -/
theorem Surveyed.answer (h : Surveyed V R ℓ s) {x : SchemaId} (hid : Named ℓ s.arena id x)
    (hR : ∀ z, ReflTransGen s.arena.Link id z → z ∈ R)
    (hrun : (normalize calls id).run s = (out, t)) (hprompt : t.arena.PromptWithin R)
    (hout : out ≠ .error .exhausted) :
    (out = .ok none ↔ Settles (fun n => V.names.eval n (.normalize x)) none) ∧
      ((∃ n, out = .ok (some n)) ↔
        ∃ n, Settles (fun n => V.names.eval n (.normalize x)) (some n)) := by
  obtain ⟨hlt, hx⟩ := named_id.1 hid
  obtain ⟨hlawful, -, houtside⟩ := outside_normalize (R := R) h.lawful hlt hrun
  have hprompt := houtside ▸ hprompt.promptBut hlawful.arena.toWellFormed
  have hfollows := (Arena.drifting_solve (s.arena.outside R) V.names calls).normalize h.labelled
    (named_id.2 ⟨Arena.inner_outside hlt hR, hx⟩)
  unfold Session.normalize Session.onArena at hrun
  rw [run_focus] at hrun
  unfold Arena.Follows Ends at hfollows
  rcases harena : (Arena.solve calls (.normalize id)).run s.arena with ⟨e | r, b⟩ <;>
    rw [harena] at hrun hfollows <;> cases hrun
  · have hnever := h.lawful.idle ((hfollows hprompt).resolve_left fun he => hout (he ▸ rfl)).1
    refine ⟨iff_of_false (by rintro ⟨⟩) fun hn => hn.not_never hnever,
      iff_of_false (by rintro ⟨n, ⟨⟩⟩) ?_⟩
    rintro ⟨n, hn⟩
    exact hn.not_never hnever
  obtain ⟨ℓ', r', hreached⟩ := hfollows hprompt
  have hval := hreached.settles
  cases r with
  | none =>
      obtain rfl := named_none.1 hreached.named
      refine ⟨iff_of_true rfl hval, iff_of_false (by rintro ⟨n, ⟨⟩⟩) ?_⟩
      rintro ⟨n, hn⟩
      cases hval.unique hn
  | some n =>
      obtain ⟨n', rfl, -⟩ := named_some.1 hreached.named
      refine ⟨iff_of_false (by rintro ⟨⟩) fun hn => ?_, iff_of_true ⟨n, rfl⟩ ⟨n', hval⟩⟩
      cases hval.unique hn

end Normalize

/-! ## Two sessions -/

/-- What a schema of a session leads to. -/
def reach (s : Session) (id : SchemaId) : Set SchemaId := {x | ReflTransGen s.arena.Link id x}

/-- Whether a schema has a normal form does not depend on what has been normalized before. If no
    conjunction is put off within it in either case, nor does it whether there is an answer at all.
    If some are, a schema without a normal form in the one case has none in the other one, provided
    that all that it leads to leaves unnamed properties alone, and that the conjunctions put off
    within it have been worked out since. -/
theorem normalize_independent {idq id' : SchemaId} {calls callsq calls' : Nat}
    {out outq out' : Except Failure (Option SchemaId)} {sq tq s' t' : Session}
    (hload : (load document p).run .empty = (.ok id, s))
    (hrun : (normalize calls id).run s = (out, t))
    (hloadq : (load document q).run .empty = (.ok idq, sq))
    (hrunq : (normalize callsq idq).run sq = (outq, tq))
    (hload' : (load document p).run tq = (.ok id', s'))
    (hrun' : (normalize calls' id').run s' = (out', t'))
    (hout : out ≠ .error .exhausted) (houtq : outq ≠ .error .exhausted)
    (hout' : out' ≠ .error .exhausted) :
    (t.arena.PromptWithin (s.reach id) → t'.arena.PromptWithin (s'.reach id') →
      (out = .ok none ↔ out' = .ok none) ∧
        ((∃ n, out = .ok (some n)) ↔ ∃ n, out' = .ok (some n))) ∧
    (document.Distinct → (∀ x ∈ s.reach id, Arena.Unrestricted (s.arena.schema x).extras) →
      (∀ naming u, Later document naming t u → u.arena.WorkedOut (s.reach id) →
        out' = .ok none → ∀ n, out ≠ .ok (some n)) ∧
      (∀ naming u, Later document naming t' u → u.arena.WorkedOut (s'.reach id') →
        out = .ok none → ∀ n, out' ≠ .ok (some n))) := by
  obtain ⟨V⟩ := exists_survey document
  constructor
  · intro hprompt hprompt'
    -- the session in which the other schema comes first
    let R' := s'.reach id'
    obtain ⟨ℓq, hsq, hidq, -⟩ := (surveyed_empty V R' fun i => i).load hloadq
    have hltq := (named_id.1 hidq).1
    obtain ⟨hlawfulq, -, -⟩ := outside_normalize (R := R') hsq.lawful hltq hrunq
    obtain ⟨⟨hreadable, hloads⟩, hid', -⟩ := reads_load hlawfulq hload'
    obtain ⟨hlawful', hfollows', -⟩ := hlawfulq.of_loads hreadable hloads
    have hprompts' : s'.arena.PromptWithin R' :=
      Arena.promptWithin_of_grows hlawful'.arena.toWellFormed
        (outside_normalize (R := R') hlawful' hid'.1 hrun').2.1 hprompt'
    obtain ⟨W, ℓq', htq⟩ := hsq.normalized hltq hrunq
      (Arena.promptWithin_of_grows hlawfulq.arena.toWellFormed hfollows'.arena hprompts') houtq
    obtain ⟨ℓ', hs', hname', -⟩ := htq.load hload'
    -- the fresh one, with the names that the other one has in the end
    obtain ⟨ℓ, hs, hname, -⟩ := (surveyed_empty W (s.reach id) fun i => i).load hload
    obtain ⟨hnone, hsome⟩ := hs.answer hname (fun _ h => h) hrun hprompt hout
    obtain ⟨hnone', hsome'⟩ := hs'.answer hname' (fun _ h => h) hrun' hprompt' hout'
    exact ⟨hnone.trans hnone'.symm, hsome.trans hsome'.symm⟩
  · intro hd hplain
    have hfound : ∀ naming, (∃ ℓ, Found V naming ℓ s id (nameAt document V.name p)) ∧
        ∃ ℓ', Found V naming ℓ' s' id' (nameAt document V.name p) := by
      intro naming
      have hempty : Reachable document naming .empty := .refl
      obtain ⟨ℓq, hq⟩ := (located_empty V fun i => i).found hempty hloadq
      obtain ⟨ℓq', hlocated, -⟩ := hq.located.normalize hq.lt hrunq
      have hstep : Step document naming sq tq := by
        simpa only [hrunq] using step_normalize hq.lt callsq
      exact ⟨(located_empty V fun i => i).found hempty hload,
        hlocated.found (hq.reachable.tail hstep) hload'⟩
    refine ⟨fun naming u hu hworked hnone n hn => ?_, fun naming u hu hworked hnone n hn => ?_⟩
    · obtain ⟨⟨ℓ, hp⟩, ℓ', hp'⟩ := hfound naming
      exact hp'.not_some hd (hnone ▸ hrun') hp (hn ▸ hrun) hplain hu hworked
    · obtain ⟨⟨ℓ, hp⟩, ℓ', hp'⟩ := hfound naming
      exact hp.not_some hd (hnone ▸ hrun) hp' (hn ▸ hrun')
        (fun x hx => hp.unrestricted hp' hplain hx) hu hworked

/-- Persons, each of whom can have a next one with a name, and names. -/
def roster : Json :=
  .obj [("person", .obj [("type", .str "object"),
      ("properties", .obj [("next", .obj [("$ref", .str "#/person")])]),
      ("allOf", .arr [.obj [("properties", .obj [("next", .obj [
        ("required", .arr [.str "name"])])])]])]),
    ("name", .obj [("type", .str "string")])]

/-- The session that has loaded the schema at the key `k`. -/
def rosterLoaded (k : String) : Session := ((load roster (Pointer.root.push k)).run .empty).2

/-- The session that has normalized it. -/
def rosterNormalized (k : String) : Session := ((normalize 5 0).run (rosterLoaded k)).2

/-- The session that has loaded the schema at `k` after that. -/
def rosterReloaded (first k : String) : Session :=
  ((load roster (Pointer.root.push k)).run (rosterNormalized first)).2

theorem roster_loads :
    ((load roster (.push .root "name")).run .empty).1.toOption = some 0 ∧
      ((load roster (.push .root "person")).run .empty).1.toOption = some 0 ∧
      ((normalize 5 0).run (rosterLoaded "name")).1.toOption = some (some 1) ∧
      ((normalize 5 0).run (rosterLoaded "person")).1.toOption = some (some 6) := by
  decide +kernel

/-- That the next person is a person with a name is put off, which is nothing to a name; and since
    it can be worked out, persons have a normal form after names as well. -/
theorem normalize_independent_roster :
    (∃ n, ((normalize 5 7).run (rosterReloaded "person" "name")).1 = .ok (some n)) ∧
      ((normalize 5 2).run (rosterReloaded "name" "person")).1 ≠ .ok none := by
  have hok : ∀ r, (.ok r : Except Failure (Option SchemaId)) ≠ .error .exhausted :=
    fun _ h => by cases h
  have hname : (load roster (.push .root "name")).run .empty = (.ok 0, rosterLoaded "name") :=
    run_eq_of_toOption roster_loads.1
  have hperson : (load roster (.push .root "person")).run .empty =
      (.ok 0, rosterLoaded "person") := run_eq_of_toOption roster_loads.2.1
  have hrunname : (normalize 5 0).run (rosterLoaded "name") =
      (.ok (some 1), rosterNormalized "name") := run_eq_of_toOption roster_loads.2.2.1
  have hrunperson : (normalize 5 0).run (rosterLoaded "person") =
      (.ok (some 6), rosterNormalized "person") := run_eq_of_toOption roster_loads.2.2.2
  constructor
  · let s' := rosterReloaded "person" "name"
    let t' := ((normalize 5 7).run s').2
    obtain ⟨hload', hout', hempty, hkeys, hlink, hlinks⟩ :
        ((load roster (.push .root "name")).run (rosterNormalized "person")).1.toOption = some 7 ∧
          ((normalize 5 7).run (rosterReloaded "person" "name")).1.toOption.isSome = true ∧
          (rosterNormalized "name").arena.operands.isEmpty = true ∧
          t'.arena.operands.keys = [5] ∧ 0 ∈ (t'.arena.schema 5).links ∧
          (s'.arena.schema 7).links = [] := by decide +kernel
    have hrun' : (normalize 5 7).run s' = (((normalize 5 7).run s').1, t') := rfl
    -- the one conjunction that is put off leads to the persons, and a name leads nowhere
    have hprompt' : t'.arena.PromptWithin (s'.reach 7) := by
      have hraw : t'.arena.Raw 0 := by
        unfold Arena.Raw Arena.IsForm
        decide +kernel
      intro d hd
      obtain rfl := Dict.eq_of_keys_eq_singleton hkeys hd
      refine ⟨0, .single hlink, hraw, fun hreach => ?_⟩
      obtain h | ⟨c, hc, -⟩ := hreach.cases_head
      · cases h
      · rw [Arena.Link, hlinks] at hc
        cases hc
    exact ((normalize_independent hname hrunname hperson hrunperson (run_eq_of_toOption hload')
      hrun' (hok _) (hok _) (run_ne_error_of_isSome hout')).1 (Arena.promptWithin_of_isEmpty hempty)
      hprompt').2.1 ⟨1, rfl⟩
  · let s := rosterLoaded "person"
    let t := rosterNormalized "person"
    let s' := rosterReloaded "name" "person"
    -- the conjunction is worked out when it is normalized in its turn
    let u := ((normalize 5 5).run t).2
    obtain ⟨hload', hout', hlt, hkeys, hform, hlinks, hextras⟩ :
        ((load roster (.push .root "person")).run (rosterNormalized "name")).1.toOption = some 2 ∧
          ((normalize 5 2).run (rosterReloaded "name" "person")).1.toOption.isSome = true ∧
          (0 < s.arena.next ∧ 5 < t.arena.next) ∧ u.arena.operands.keys = [5] ∧
          u.arena.progress.get? 5 = some (.done (some 9)) ∧
          (∀ x < 5, ∀ y ∈ (s.arena.schema x).links, y < 5) ∧
          ∀ x < 5, (s.arena.schema x).extras.isNone := by decide +kernel
    have hrun' : (normalize 5 2).run s' =
        (((normalize 5 2).run s').1, ((normalize 5 2).run s').2) := rfl
    have hlater : Later roster .marked t u := .single (step_normalize hlt.2 5)
    have hreachable : Reachable roster .marked u :=
      .trans (.tail (.single (step_load .empty (.push .root "person")))
        (step_normalize hlt.1 5)) hlater
    have hworked : u.arena.WorkedOut (s.reach 0) :=
      Arena.workedOut_of_single (several_of_reachable hreachable)
        (fun z hz => Dict.eq_of_keys_eq_singleton hkeys hz) ⟨9, hform⟩
    have hplain : ∀ x ∈ s.reach 0, Arena.Unrestricted (s.arena.schema x).extras := by
      intro x hx
      have hlt : x < 5 := by
        induction hx with
        | refl => decide
        | tail _ hxy ih => exact hlinks _ ih _ hxy
      exact .inl (Option.isNone_iff_eq_none.1 (hextras x hlt))
    exact fun hnone => ((normalize_independent hperson hrunperson hname hrunname
      (run_eq_of_toOption hload') hrun' (hok _) (hok _) (run_ne_error_of_isSome hout')).2
      (by simp [roster]) hplain).1 .marked u hlater hworked hnone 6 rfl

/-- Two schemas that recur through each other below properties on which both have demands of their
    own. -/
def knot : Json :=
  .obj [("P", .obj [("properties", .obj [("c", .obj [("$ref", .str "#/Q")])]),
      ("allOf", .arr [.obj [("properties", .obj [("c", .obj [("type", .str "integer")])])]])]),
    ("Q", .obj [("type", .str "object"),
      ("properties", .obj [("k", .obj [("$ref", .str "#/P")])]),
      ("allOf", .arr [.obj [("properties", .obj [("k", .obj [
        ("minProperties", .num (.int 1))])])]])])]

theorem knot_runs :
    let p := Pointer.root.push "P"
    let q := Pointer.root.push "Q"
    let sq := ((load knot q).run .empty).2
    let tq := ((normalize 7 0).run sq).2
    let s' := ((load knot p).run tq).2
    ((load knot p).run .empty).1.toOption = some 0 ∧
      ((normalize 9 0).run ((load knot p).run .empty).2).1.toOption = some none ∧
      ((load knot q).run .empty).1.toOption = some 0 ∧
      ((normalize 7 0).run sq).1.toOption = some (some 14) ∧
      ((load knot p).run tq).1.toOption = some 1 ∧
      ((normalize 7 1).run s').1.toOption = some (some 11) := by
  decide +kernel

/-- Where a conjunction is put off, it matters what was normalized before: an integer that has to be
    a `Q` is found out to be impossible only while `Q` is not under normalization itself. -/
theorem normalize_dependent_knot :
    ¬∀ (document : Json) (p q : Pointer) (id idq id' : SchemaId) (calls callsq calls' : Nat)
      (out outq out' : Except Failure (Option SchemaId)) (s t sq tq s' t' : Session),
      (load document p).run .empty = (.ok id, s) → (normalize calls id).run s = (out, t) →
      (load document q).run .empty = (.ok idq, sq) →
      (normalize callsq idq).run sq = (outq, tq) →
      (load document p).run tq = (.ok id', s') → (normalize calls' id').run s' = (out', t') →
      out ≠ .error .exhausted → outq ≠ .error .exhausted → out' ≠ .error .exhausted →
      (out = .ok none ↔ out' = .ok none) := by
  intro h
  obtain ⟨hload, hrun, hloadq, hrunq, hload', hrun'⟩ := knot_runs
  cases (h knot _ _ 0 0 1 9 7 7 _ _ _ _ _ _ _ _ _ (run_eq_of_toOption hload)
    (run_eq_of_toOption hrun) (run_eq_of_toOption hloadq) (run_eq_of_toOption hrunq)
    (run_eq_of_toOption hload') (run_eq_of_toOption hrun') nofun nofun nofun).1 rfl

/-- Normalizing `p` next comes to `out`, and leaves the session `t`. -/
def NormalizesTo (document : Json) (p : Pointer) (s : Session)
    (out : Except Failure (Option SchemaId)) (t : Session) : Prop :=
  ∃ id calls s', (load document p).run s = (.ok id, s') ∧ (normalize calls id).run s' = (out, t) ∧
    out ≠ .error .exhausted

/-- Loading the schema at `p` and normalizing it. -/
def normalizeAt (document : Json) (calls : Nat) (p : Pointer) : SessionWork (Option SchemaId) := do
  normalize calls (← load document p)

theorem normalizesTo_of_toOption {s : Session} {calls : Nat} {r : Option SchemaId}
    (h : ((normalizeAt document calls p).run s).1.toOption = some r) :
    NormalizesTo document p s (.ok r) ((normalizeAt document calls p).run s).2 := by
  obtain ⟨id, s', hload, hrun⟩ := exists_of_run_bind (run_eq_of_toOption h)
  exact ⟨id, calls, s', hload, hrun, by rintro ⟨⟩⟩

theorem later_normalizeAt {naming : Naming} {s : Session} (hs : Reachable document naming s)
    (calls : Nat) (p : Pointer) :
    Later document naming s ((normalizeAt document calls p).run s).2 := by
  have hstep : Step document naming s ((load document p).run s).2 := step_load s p
  unfold normalizeAt
  rw [run_bind]
  rcases hload : (load document p).run s with ⟨e | id, t⟩ <;> rw [hload] at hstep
  · exact .single hstep
  · have hlawful := hs.lawful Arena.upheld_provenance hereditary_true trivial
    exact .tail (.single hstep) (step_normalize (reads_load hlawful hload).2.1.1 calls)

theorem later_normalizeAll {naming : Naming} {s : Session} {ids : List SchemaId}
    (hs : Reachable document naming s) (hids : ∀ id ∈ ids, id < s.arena.next) (calls : Nat) :
    Later document naming s ((normalizeAll calls ids).run s).2 := by
  induction ids generalizing s with
  | nil => exact .refl
  | cons id ids ih =>
      have hstep : Step document naming s ((normalize calls id).run s).2 :=
        step_normalize (hids id (by simp)) calls
      have hgrows := (lawful_of_later Arena.upheld_provenance hereditary_true trivial
        (hs.lawful Arena.upheld_provenance hereditary_true trivial) (.single hstep)).2
      unfold normalizeAll
      rw [run_bind]
      rcases hrun : (normalize calls id).run s with ⟨e | form, t⟩ <;> rw [hrun] at hstep hgrows
      · exact .single hstep
      · have hrest := ih (hs.tail hstep) fun c hc =>
          Nat.lt_of_lt_of_le (hids c (by simp [hc])) hgrows.next
        show Later document naming s ((normalizeAll calls ids >>= _).run t).2
        rw [run_bind]
        rcases hall : (normalizeAll calls ids).run t with ⟨e | forms, u⟩ <;> rw [hall] at hrest
        · exact .head hstep hrest
        · exact .head hstep hrest

/-- Two maps whose values are conjunctions that have the other map with `G` for the entry `k`, and a
    schema that has an entry `l` of another kind. -/
def paradox : Json :=
  let ref (k : String) : Json := .obj [("$ref", .str ("#/" ++ k))]
  .obj [("P", .obj [("allOf", .arr [ref "F1", ref "G"])]),
    ("G", .obj [("properties", .obj [("l", .obj [("type", .str "string")])])]),
    ("F1", .obj [("allOf", .arr [.obj [("additionalProperties", ref "f2")],
      .obj [("additionalProperties", ref "g2")]])]),
    ("F2", .obj [("allOf", .arr [.obj [("additionalProperties", ref "f1")],
      .obj [("additionalProperties", ref "g1")]])]),
    ("f1", .obj [("type", .str "object"), ("properties", .obj [("k", ref "F1")])]),
    ("f2", .obj [("type", .str "object"), ("properties", .obj [("k", ref "F2")])]),
    ("g1", .obj [("properties", .obj [("k", ref "G")])]),
    ("g2", .obj [("properties", .obj [("k", ref "G")])])]

theorem paradox_runs :
    let p := Pointer.root.push "P"
    let q := Pointer.root.push "F2"
    let t := ((normalizeAt paradox 9 p).run .empty).2
    let tq := ((normalizeAt paradox 9 q).run .empty).2
    let u := ((normalizeAll 9 [24]).run t).2
    ((normalizeAt paradox 9 p).run .empty).1.toOption = some (some 29) ∧
      ((normalizeAt paradox 9 q).run .empty).1.toOption = some (some 27) ∧
      ((normalizeAt paradox 9 p).run tq).1.toOption = some none ∧
      (∀ x ∈ [24], x < t.arena.next) ∧ u.arena.operands.keys = [24] ∧
      u.arena.progress.get? 24 = some (.done (some 29)) := by
  decide +kernel

/-- Where unnamed properties have demands to meet, it matters what was normalized before even if the
    conjunction put off has a normal form: `F1` with `G` is impossible if and only if `F2` with `G`
    is possible, and the one that comes up first is. -/
theorem normalize_dependent_paradox :
    ¬∀ (document : Json) (naming : Naming) (p q : Pointer)
      (out outq out' : Except Failure (Option SchemaId)) (t tq t' u : Session),
      document.Distinct → NormalizesTo document p .empty out t →
      NormalizesTo document q .empty outq tq → NormalizesTo document p tq out' t' →
      Later document naming t u →
      (∀ x, u.arena.operands.get? x ≠ none → u.arena.HasForm x) →
      (∀ x y, u.arena.operands.get? x ≠ none → u.arena.PartOf x y → x = y) →
      out' = .ok none → ∀ n, out ≠ .ok (some n) := by
  intro h
  obtain ⟨hrun, hrunq, hrun', hput, hkeys, hform⟩ := paradox_runs
  have ht : Reachable paradox .marked _ := later_normalizeAt .refl 9 (Pointer.root.push "P")
  have hlater := later_normalizeAll ht hput 9
  exact h paradox .marked _ _ _ _ _ _ _ _ _ (by simp [paradox]) (normalizesTo_of_toOption hrun)
    (normalizesTo_of_toOption hrunq) (normalizesTo_of_toOption hrun') hlater
    (fun x hx => ⟨29, (Dict.eq_of_keys_eq_singleton hkeys hx).symm ▸ hform⟩)
    (fun x y hx hpart => Arena.eq_of_partOf (several_of_reachable (ht.trans hlater)) hx
      (fun z hz _ => (Dict.eq_of_keys_eq_singleton hkeys hx).trans
        (Dict.eq_of_keys_eq_singleton hkeys hz).symm) hpart) rfl 29 rfl

/-- A schema of which a part has to meet the demands of `Q`, of `V` and of `W`, where `Q` recurs
    through the schema, `V` contradicts one side of `Q`, and `W` rules out the property at issue and
    the other side. -/
def ruledOut : Json :=
  let ref (k : String) : Json := .obj [("$ref", .str ("#/" ++ k))]
  let part (k : String) : Json := .obj [("properties", .obj [("c", ref k)])]
  .obj [("P", .obj [("properties", .obj [("z", ref "W")]),
      ("allOf", .arr [part "Q", part "V", part "W"])]),
    ("Q", .obj [("properties", .obj [("k", ref "P")]),
      ("allOf", .arr [.obj [("properties", .obj [("k", .obj [("type", .str "object")])])]]),
      ("anyOf", .arr [.obj [("properties", .obj [("x", .obj [("type", .str "integer")])])],
        .obj [("type", .str "array")]])]),
    ("V", .obj [("properties", .obj [("x", .obj [("type", .str "string")])])]),
    ("W", .obj [("type", .str "object"), ("additionalProperties", .bool false)])]

/-- One of the conjunctions put off is part of the other one, and is worked out last. -/
theorem ruledOut_runs :
    let p := Pointer.root.push "P"
    let tq := ((normalizeAt ruledOut 6 (Pointer.root.push "Q")).run .empty).2
    let t' := ((normalizeAt ruledOut 6 p).run tq).2
    let u := ((normalizeAll 6 [22]).run t').2
    let u' := ((normalizeAll 6 [19]).run u).2
    (((normalizeAt ruledOut 6 p).run .empty).1.toOption = some none ∧
      ((normalizeAt ruledOut 6 (Pointer.root.push "Q")).run .empty).1.toOption = some (some 31) ∧
      ((normalizeAt ruledOut 6 p).run tq).1.toOption = some (some 23)) ∧
    ((∀ x ∈ [22], x < t'.arena.next) ∧ u.arena.operands.keys = [19, 22] ∧
      (∀ o ∈ (u.arena.operandsOf 19).elements, o ∈ (u.arena.operandsOf 22).elements) ∧
      (¬∀ o ∈ (u.arena.operandsOf 22).elements, o ∈ (u.arena.operandsOf 19).elements) ∧
      u.arena.progress.get? 22 = some (.done (some 33)) ∧
      u.arena.progress.get? 19 = none) ∧
    (∀ x ∈ [19], x < u.arena.next) ∧ u'.arena.operands.keys = [19, 22] ∧
      ∀ x ∈ [19, 22], ∃ n ∈ [38, 33], u'.arena.progress.get? x = some (.done (some n)) := by
  decide +kernel

/-- Where unnamed properties are ruled out, it matters in which order the schemas of a conjunction
    come, and putting it off changes that: what `V` contradicts is ruled out if `W` comes first. -/
theorem normalize_dependent_ruledOut :
    ¬∀ (document : Json) (naming : Naming) (p q : Pointer)
      (out outq out' : Except Failure (Option SchemaId)) (t tq t' u u' : Session),
      document.Distinct → NormalizesTo document p .empty out t →
      NormalizesTo document q .empty outq tq → NormalizesTo document p tq out' t' →
      Later document naming t' u →
      (∀ x, u.arena.operands.get? x ≠ none → ∃ y, u.arena.PartOf x y ∧ u.arena.HasForm y) →
      (∀ x y, u.arena.operands.get? x ≠ none → u.arena.HasForm x → u.arena.PartOf x y → x = y) →
      Later document naming u u' →
      (∀ x, u'.arena.operands.get? x ≠ none → u'.arena.HasForm x) →
      out = .ok none → ∀ n, out' ≠ .ok (some n) := by
  intro h
  obtain ⟨⟨hrun, hrunq, hrun'⟩, ⟨hput, hkeys, hpart, hpart', hform, huntouched⟩, hput', hkeys',
    hforms⟩ := ruledOut_runs
  have htq : Reachable ruledOut .marked _ := later_normalizeAt .refl 6 (Pointer.root.push "Q")
  have ht : Reachable ruledOut .marked _ :=
    htq.trans (later_normalizeAt htq 6 (Pointer.root.push "P"))
  have hlater := later_normalizeAll ht hput 6
  have hreachable := ht.trans hlater
  refine h ruledOut .marked _ _ _ _ _ _ _ _ _ _ (by simp [ruledOut, Json.Distinct.bool])
    (normalizesTo_of_toOption hrun) (normalizesTo_of_toOption hrunq)
    (normalizesTo_of_toOption hrun') hlater ?formed ?whole
    (later_normalizeAll hreachable hput' 6) ?forms rfl 23 rfl
  case formed =>
    intro x hx
    refine ⟨22, ?_, 33, hform⟩
    rw [ne_eq, Dict.get?_eq_none_iff, hkeys, not_not] at hx
    rcases List.mem_pair.1 hx with rfl | rfl
    · exact hpart
    · exact fun _ ho => ho
  case whole =>
    rintro x y hx ⟨n, hn⟩ hxy
    refine Arena.eq_of_partOf (several_of_reachable hreachable) hx (fun z hz hxz => ?_) hxy
    rw [ne_eq, Dict.get?_eq_none_iff, hkeys, not_not] at hx hz
    rcases List.mem_pair.1 hx with rfl | rfl
    · cases huntouched.symm.trans hn
    · rcases List.mem_pair.1 hz with rfl | rfl
      · exact absurd hxz hpart'
      · rfl
  case forms =>
    intro x hx
    rw [ne_eq, Dict.get?_eq_none_iff, hkeys', not_not] at hx
    obtain ⟨n, -, hn⟩ := hforms x hx
    exact ⟨n, hn⟩

/-- A schema `P` whose part `c` has to meet the demands of `A`, of `X`, of `Y` and of `B`, where
    parts of `A` and of `B` are at odds in one of their alternatives, `X` has a part that must be
    both, and `Y` has one that must be all of the four. -/
def fork : Json :=
  let ref (k : String) : Json := .obj [("$ref", .str ("#/" ++ k))]
  let part (k s : String) : String × Json := ("properties", .obj [(k, ref s)])
  .obj [("P", .obj [("allOf", .arr [ref "U", ref "V"])]),
    ("Q", .obj [("properties", .obj [("x", ref "X"), ("a", ref "A"), ("p", ref "P")]),
      ("allOf", .arr [.obj [("properties", .obj [("a", .obj []), ("p", .obj [])])]])]),
    ("U", .obj [part "c" "A", ("allOf", .arr [.obj [part "c" "X"]])]),
    ("V", .obj [part "c" "Y", ("allOf", .arr [.obj [part "c" "B"]])]),
    ("X", .obj [part "c" "A", ("allOf", .arr [.obj [part "c" "B"]])]),
    ("Y", .obj [("type", .str "object"), ("allOf", .arr [ref "U", ref "V"])]),
    ("A", .obj [part "k" "X", ("allOf", .arr [.obj [part "k" "Y"]]),
      ("anyOf", .arr [.obj [("type", .str "object"), part "c" "S"], ref "S"])]),
    ("B", .obj [("anyOf", .arr [.obj [("type", .str "object"), part "c" "Y"],
      .obj [("type", .str "string"), ("allOf", .arr [ref "Q"])]])]),
    ("S", .obj [("type", .str "string")])]

theorem fork_runs :
    let p := Pointer.root.push "P"
    let tq := ((normalizeAt fork 9 (Pointer.root.push "Q")).run .empty).2
    let t' := ((normalizeAt fork 9 p).run tq).2
    let u := ((normalizeAll 10 [37, 35, 30, 25]).run t').2
    (((normalizeAt fork 14 p).run .empty).1.toOption = some none ∧
      ((normalizeAt fork 9 (Pointer.root.push "Q")).run .empty).1.toOption = some (some 19) ∧
      ((normalizeAt fork 9 p).run tq).1.toOption = some (some 46)) ∧
    (∀ x ∈ [37, 35, 30, 25], x < t'.arena.next) ∧ u.arena.operands.keys = [25, 30, 35, 37] ∧
      (∀ x ∈ [25, 30, 35, 37], ∃ n ∈ [55, 64, 38, 59],
        u.arena.progress.get? x = some (.done (some n))) ∧
      ∀ x < u.arena.next, (u.arena.schema x).extras.isNone := by
  decide +kernel

/-- Where a conjunction put off leads to alternatives and is part of a bigger one, it matters what
    was normalized before even if all of them have normal forms: an alternative of `A` and `B` that
    was found to be impossible is kept where the conjunction with `Y` is put off within itself. -/
theorem normalize_dependent_fork :
    ¬∀ (document : Json) (naming : Naming) (p q : Pointer)
      (out outq out' : Except Failure (Option SchemaId)) (t tq t' u : Session),
      document.Distinct → NormalizesTo document p .empty out t →
      NormalizesTo document q .empty outq tq → NormalizesTo document p tq out' t' →
      Later document naming t' u →
      (∀ x < u.arena.next, Arena.Unrestricted (u.arena.schema x).extras) →
      (∀ x, u.arena.operands.get? x ≠ none → u.arena.HasForm x) →
      out = .ok none → ∀ n, out' ≠ .ok (some n) := by
  intro h
  obtain ⟨⟨hrun, hrunq, hrun'⟩, hput, hkeys, hforms, hextras⟩ := fork_runs
  have htq : Reachable fork .marked _ := later_normalizeAt .refl 9 (Pointer.root.push "Q")
  have ht : Reachable fork .marked _ :=
    htq.trans (later_normalizeAt htq 9 (Pointer.root.push "P"))
  refine h fork .marked _ _ _ _ _ _ _ _ _ (by simp [fork]) (normalizesTo_of_toOption hrun)
    (normalizesTo_of_toOption hrunq) (normalizesTo_of_toOption hrun')
    (later_normalizeAll ht hput 10) (fun x hx => .inl (Option.isNone_iff_eq_none.1 (hextras x hx)))
    (fun x hx => ?_) rfl 46 rfl
  rw [ne_eq, Dict.get?_eq_none_iff, hkeys, not_not] at hx
  obtain ⟨n, -, hn⟩ := hforms x hx
  exact ⟨n, hn⟩

/-- The document is at fault. -/
def isFault : Except Failure (Option SchemaId) → Bool
  | .error (.fault _) => true
  | _ => false

/-- A schema `P` whose part `c` is contradicted by `W` on one property and at odds with it on
    another one in a way that is not supported. -/
def reordered : Json :=
  let ref (k : String) : Json := .obj [("$ref", .str ("#/" ++ k))]
  let part (k s : String) : String × Json := ("properties", .obj [(k, ref s)])
  .obj [("P", .obj [("allOf", .arr [ref "V", .obj [part "c" "W"]])]),
    ("Q", .obj [("properties", .obj [("y", ref "Y"), ("v", ref "V")]),
      ("allOf", .arr [.obj [("properties", .obj [("v", .obj [])])]])]),
    ("V", .obj [part "c" "X", ("allOf", .arr [.obj [part "c" "Y"]])]),
    ("X", .obj [("properties", .obj [("k", .obj [("type", .str "integer")])]),
      ("allOf", .arr [ref "Q"])]),
    ("Y", .obj [("properties", .obj [("l", .obj [("multipleOf", .num (.int 2))])])]),
    ("W", .obj [("properties", .obj [("k", .obj [("type", .str "string")]),
      ("l", .obj [("multipleOf", .num (.int 3))])])])]

theorem reordered_runs :
    let p := Pointer.root.push "P"
    let tq := ((normalizeAt reordered 9 (Pointer.root.push "Q")).run .empty).2
    let s' := ((load reordered p).run tq).2
    let t' := ((normalize 9 16).run s').2
    ((normalizeAt reordered 9 p).run .empty).1.toOption = some none ∧
      ((normalizeAt reordered 9 (Pointer.root.push "Q")).run .empty).1.toOption = some (some 9) ∧
      ((load reordered p).run tq).1.toOption = some 16 ∧
      isFault ((normalize 9 16).run s').1 = true ∧ t'.arena.operands.keys = [13] ∧
      t'.arena.progress.get? 13 = some (.done (some 27)) ∧
      ∀ x < t'.arena.next, (t'.arena.schema x).extras.isNone := by
  decide +kernel

/-- Whether a contradiction or the fault is found first depends on the order in which properties
    come, and a conjunction put off has its schemas in another order. -/
theorem normalize_dependent_reordered :
    ¬∀ (document : Json) (p q : Pointer) (out outq out' : Except Failure (Option SchemaId))
      (t tq t' : Session),
      document.Distinct → NormalizesTo document p .empty out t →
      NormalizesTo document q .empty outq tq → NormalizesTo document p tq out' t' →
      (∀ x < t'.arena.next, Arena.Unrestricted (t'.arena.schema x).extras) →
      (∀ x, t'.arena.operands.get? x ≠ none → t'.arena.HasForm x) →
      out = .ok none → out' = .ok none := by
  intro h
  obtain ⟨hrun, hrunq, hload', hfault, hkeys, hform, hextras⟩ := reordered_runs
  have hne : ∀ {out out' : Except Failure (Option SchemaId)}, isFault out = true →
      isFault out' = false → out ≠ out' := by
    rintro out _ h h' rfl
    cases h.symm.trans h'
  refine hne hfault rfl (h reordered _ _ _ _ _ _ _ _ (by simp [reordered, Json.Distinct.num])
    (normalizesTo_of_toOption hrun) (normalizesTo_of_toOption hrunq)
    ⟨16, 9, _, run_eq_of_toOption hload', rfl, hne hfault rfl⟩
    (fun x hx => .inl (Option.isNone_iff_eq_none.1 (hextras x hx)))
    (fun x hx => ⟨27, (Dict.eq_of_keys_eq_singleton hkeys hx).symm ▸ hform⟩) rfl)

end Session

end ApiModel
