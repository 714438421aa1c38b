/-
  ApiModel.Proofs.Schema.Aside

  Work on schemas that are left out of account. It may put off what it likes and come to what it
  likes; as long as it puts off no conjunction of schemas that are followed, there are right labels
  afterwards. What it stores is numbered, and where it comes upon schemas that are followed, it
  follows.
-/
import ApiModel.Proofs.Schema.Guided

namespace ApiModel.Arena

open Mentions (rename)

variable {α β : Type} {O : Set SchemaId} {ν : Nomenclature} {A : Allowance} {ℓ ℓ' ℓ'' : Labels}
  {a b c : Arena} {P : Json → Prop} {solve : Solver} {x y : SchemaId} {s s₁ s₂ : Schema}

/-! ## Right labels afterwards -/

/-- Whatever comes of `x` in the arena `a` with the labels `ℓ`, there are right labels afterwards,
    unless a conjunction of schemas that are followed is put off or the calls run out. -/
def Drifts (O : Set SchemaId) (ν : Nomenclature) (ℓ : Labels) (a : Arena) (x : ArenaWork α) :
    Prop :=
  x.Ends a (fun _ b => b.PromptBut O → ∃ ℓ', Carries ν ℓ ℓ' a b ∧ Tracks O ν ℓ' b)
    fun e b => b.PromptBut O → e = .exhausted ∨ ∃ ℓ', Wreck O ν ℓ ℓ' a b

/-- What follows a value leaves right labels. -/
theorem Follows.drifts [Mentions α] {w : ArenaWork α} {cx : Nat → Option α}
    (h : Follows O ν A ℓ a w cx) : Drifts O ν ℓ a w := by
  refine Work.Ends.mono h (fun r b hok hp => ?_) fun e b hbad hp => (hbad hp).imp_right And.right
  obtain ⟨ℓ', r', hreached⟩ := hok hp
  exact ⟨ℓ', hreached.moves.toCarries, hreached.tracks⟩

namespace Drifts

variable {w : ArenaWork α} {f : α → ArenaWork β} {post : α → Arena → Prop}

theorem pure {r : α} (h : Tracks O ν ℓ a) : Drifts O ν ℓ a (Pure.pure r) :=
  fun _ => ⟨ℓ, .refl a ℓ, h⟩

theorem fault {e : Fault} (h : Tracks O ν ℓ a) : Drifts O ν ℓ a (Work.fault e : ArenaWork α) :=
  fun _ => .inr ⟨ℓ, .refl h⟩

theorem view_bind {γ : Type} {g : Arena → γ} {f : γ → ArenaWork β}
    (h : Drifts O ν ℓ a (f (g a))) : Drifts O ν ℓ a (Work.view g >>= f) := h

/-- One computation after another. -/
theorem bind (ha : Labelled O ν ℓ a) (hw : Drifts O ν ℓ a w) (hruns : Steps w a post)
    (hkeeps : ∀ r, Keeps (f r))
    (hf : ∀ r b ℓ', Labelled O ν ℓ' b → Advances a b → post r b → Drifts O ν ℓ' b (f r)) :
    Drifts O ν ℓ a (w >>= f) := by
  refine Work.ends_bind.2 (Work.Ends.mono (Work.Ends.and hruns hw) ?_ fun _ _ h => h.2)
  rintro r b ⟨⟨⟨hb, hab⟩, hpost⟩, hok⟩
  have hkeep := hkeeps r b
  unfold Drifts Work.Ends at *
  -- what the second computation leaves tells whether the first one put off too much
  rcases hrunf : (f r).run b with ⟨e | q, d⟩ <;> rw [hrunf] at hkeep <;> intro hp <;>
    obtain ⟨ℓ', hcarries, htracks⟩ := hok (promptBut_of_retains hb.toWellFormed hkeep hp) <;>
    have hdrifts := hf r b ℓ' (ha.after hb hab.toGrows htracks) hab.toAdvances hpost <;>
    rw [hrunf] at hdrifts
  · refine (hdrifts hp).imp_right fun ⟨ℓ'', hwreck⟩ => ⟨ℓ'', ?_⟩
    exact hwreck.after ha.toWellFormed hb.toWellFormed hab.toAdvances hcarries
  · obtain ⟨ℓ'', hcarries', htracks'⟩ := hdrifts hp
    exact ⟨ℓ'', hcarries.trans hab.next hcarries', htracks'⟩

/-- A computation first that leaves the arena alone. -/
theorem after_still {γ : Type} {v : ArenaWork γ} {f : γ → ArenaWork β} {Q : γ → Prop}
    (h : Tracks O ν ℓ a) (hv : v.Ends a (fun r b => b = a ∧ Q r) fun _ b => b = a)
    (hf : ∀ r, Q r → Drifts O ν ℓ a (f r)) : Drifts O ν ℓ a (v >>= f) := by
  refine Work.ends_bind.2 (Work.Ends.mono hv ?_ ?_)
  · rintro r b ⟨rfl, hr⟩
    exact hf r hr
  · rintro e b rfl _
    exact .inr ⟨ℓ, .refl h⟩

end Drifts

/-! ## Solvers -/

/-- A sound solver that follows the answers on names of schemas that are followed, and leaves right
    labels whatever it is asked for. -/
structure Drifting (O : Set SchemaId) (ν : Nomenclature) (solve : Solver) : Prop extends
    Guided O ν solve where
  task : ∀ {ℓ a} task, Labelled O ν ℓ a → a.Valid task → Drifts O ν ℓ a (solve task)

namespace Drifting

variable {f : Option SchemaId → ArenaWork β}

theorem normalize_bind (h : Drifting O ν solve) (ha : Labelled O ν ℓ a) (hx : x < a.next)
    (hkeeps : ∀ r, Keeps (f r))
    (hf : ∀ r b ℓ', Labelled O ν ℓ' b → Advances a b → b.progress.get? x = some (.done r) →
      Drifts O ν ℓ' b (f r)) : Drifts O ν ℓ a (solve (.normalize x) >>= f) :=
  .bind ha (h.task _ ha hx) (h.sound.normalize ha.toLawful hx fun _ _ => trivial) hkeeps hf

theorem conjoin_bind (h : Drifting O ν solve) (ha : Labelled O ν ℓ a) {place : Pointer}
    (hx : x < a.next) (hy : y < a.next) (hkeeps : ∀ r, Keeps (f r))
    (hf : ∀ r b ℓ', Labelled O ν ℓ' b → Advances a b → (∀ n, r = some n → b.IsForm n) →
      Drifts O ν ℓ' b (f r)) : Drifts O ν ℓ a (solve (.conjoin x y place) >>= f) :=
  .bind ha (h.task _ ha ⟨hx, hy⟩) (h.sound.conjoin ha.toLawful hx hy fun _ _ => trivial) hkeeps
    fun r b ℓ' hb hab hjoined => hf r b ℓ' hb hab fun _ hn => (hn ▸ hjoined).isForm

end Drifting

/-! ## What is stored -/

/-- What is added gets its number for a name, unless it is followed and no normal form. -/
theorem Labelled.exists_add (ha : Labelled O ν ℓ a) (hb : Adds a b s)
    (hs : ∀ l ∈ s.links, l < a.next) (hself : Inner O b a.next → b.IsForm a.next) :
    ∃ ℓ', Carries ν ℓ ℓ' a b ∧ Tracks O ν ℓ' b := by
  have hstoring : Storing O ν (.other a.next) ℓ
      (Function.update ℓ a.next (ν.stored (.other a.next) (rename ℓ s))) a b :=
    storing_add ha.toWellFormed hb _
  refine ⟨_, hstoring.carries,
    (ha.tracks.add ha.toWellFormed hb ⟨hs, rfl⟩ ?_ ?_ ?_ hself).mono ?_ fun _ => id⟩
  · exact fun i t hi ht => Nat.ne_of_lt hi (ha.tracks.other i _ t hi ht)
  · rintro _ _ _ ⟨⟩
  · rintro _ ⟨⟩
    rfl
  · rintro u v q (h | h)
    · exact h
    · cases h

theorem drifts_store (ha : Labelled O ν ℓ a) (hs : ∀ l ∈ s.links, l < a.next) :
    Drifts O ν ℓ a (store s) := by
  unfold store
  dsimp only
  split
  · exact .pure ha.tracks
  · exact fun _ => ha.exists_add (adds_addForm a _) (links_trimValues s ▸ hs)
      fun _ => isForm_addForm a _

theorem drifts_reuseOrStore (ha : Labelled O ν ℓ a) (hs : ∀ l ∈ s.links, l < a.next) :
    Drifts O ν ℓ a (reuseOrStore x y s₁ s₂ s) := by
  unfold reuseOrStore
  split
  · exact .pure ha.tracks
  split
  · exact .pure ha.tracks
  · exact drifts_store ha hs

/-! ## Child schemas -/

/-- A conjunction put off may not be one of schemas that are followed. -/
theorem drifts_putOff (ha : Labelled O ν ℓ a) (hx : x < a.next) (hy : y < a.next)
    (place : Pointer) : Drifts O ν ℓ a (putOff x y place) := by
  unfold putOff
  refine .view_bind ?_
  dsimp only
  split
  · exact .pure ha.tracks
  refine .view_bind ?_
  split
  · exact .pure ha.tracks
  have hlt := union_operandsOf_lt ha.toWellFormed hx hy
  generalize (a.operandsOf x).union (a.operandsOf y) = os at hlt
  intro (hp : (a.addDeferred os place).PromptBut O)
  refine ha.exists_add (adds_addDeferred a os place) ?_ fun hinner =>
    absurd hinner (hp a.next (by simp [operands_addDeferred]))
  rwa [Schema.links_conjunction]

theorem drifts_conjoinChildren (h : Drifting O ν solve) (ha : Labelled O ν ℓ a) (hx : x < a.next)
    (hy : y < a.next) (place : Pointer) : Drifts O ν ℓ a (conjoinChildren solve x y place) := by
  unfold conjoinChildren
  split
  · exact .pure ha.tracks
  refine .view_bind ?_
  split
  · exact .bind ha (drifts_putOff ha hx hy place) (runs_putOff ha.toLawful hx hy place)
      (fun _ => keeps_pure _) fun _ _ _ hb _ _ => .pure hb.tracks
  refine h.normalize_bind ha hx (fun fx => (h.keeps _).bind fun fy => ?_)
    fun fx b ℓb hb hab hfx => ?_
  · split
    · refine (h.keeps _).bind fun r => ?_
      split <;> exact keeps_pure _
    · exact keeps_pure _
  refine h.normalize_bind hb (Nat.lt_of_lt_of_le hy hab.next) (fun fy => ?_)
    fun fy c ℓc hc hbc hfy => ?_
  · split
    · refine (h.keeps _).bind fun r => ?_
      split <;> exact keeps_pure _
    · exact keeps_pure _
  split
  · next nx ny =>
      have hnx := hc.isForm_lt (hc.form _ _ (hbc.done _ _ hfx))
      have hny := hc.isForm_lt (hc.form _ _ hfy)
      refine h.conjoin_bind hc hnx hny (fun r => ?_) fun r d ℓd hd _ _ => ?_
      · split <;> exact keeps_pure _
      · split <;> exact .pure hd.tracks
  · exact .pure hc.tracks

section Parts

variable (h : Drifting O ν solve) (h₁ : s₁.Proper (fun _ => True) a.next)
  (h₂ : s₂.Proper (fun _ => True) a.next)
include h h₁ h₂

/-- The conjunction of parts `x` and `y` of two schemas, as part of a computation. -/
theorem Drifting.parts_bind {f : Option SchemaId → ArenaWork β} {place : Pointer}
    (ha : Labelled O ν ℓ a) (hx : x ∈ s₁.links) (hy : y ∈ s₂.links) (hkeeps : ∀ r, Keeps (f r))
    (hf : ∀ r b ℓ', Labelled O ν ℓ' b → Drifts O ν ℓ' b (f r)) :
    Drifts O ν ℓ a (conjoinChildren solve x y place >>= f) :=
  .bind ha (drifts_conjoinChildren h ha (h₁.links x hx) (h₂.links y hy) place)
    (runs_conjoinChildren h.sound ha.toLawful (h₁.links x hx) (h₂.links y hy) fun _ _ => trivial)
    hkeeps fun r b ℓ' hb _ _ => hf r b ℓ' hb

theorem drifts_conjoinItems (ha : Labelled O ν ℓ a) (place : Pointer) :
    Drifts O ν ℓ a (conjoinItems solve s₁ s₂ place) := by
  unfold conjoinItems
  split
  · next x y hx hy =>
      refine h.parts_bind h₁ h₂ ha (Schema.mem_links_of_items hx) (Schema.mem_links_of_items hy)
        (fun r => ?_) fun r b ℓ' hb => ?_
      · split <;> exact keeps_pure _
      · split <;> exact .pure hb.tracks
  · exact .pure ha.tracks

theorem drifts_conjoinExtras (ha : Labelled O ν ℓ a) (place : Pointer) :
    Drifts O ν ℓ a (conjoinExtras solve s₁ s₂ place) := by
  unfold conjoinExtras
  split
  case h_7 x y hx hy =>
    refine h.parts_bind h₁ h₂ ha (Schema.mem_links_of_extras hx) (Schema.mem_links_of_extras hy)
      (fun r => ?_) fun r b ℓ' hb => ?_
    · split <;> exact keeps_pure _
    · split <;> exact .pure hb.tracks
  all_goals exact .pure ha.tracks

theorem drifts_conjoinProperty (ha : Labelled O ν ℓ a) (key : String) (place : Pointer) :
    Drifts O ν ℓ a (conjoinProperty solve s₁ s₂ key place) := by
  unfold conjoinProperty
  split
  · next x y hx hy =>
      exact drifts_conjoinChildren h ha (h₁.links x (Schema.mem_links_of_property hx))
        (h₂.links y (Schema.mem_links_of_property hy)) place
  · next x hx _ =>
      split
      · next e he =>
          exact drifts_conjoinChildren h ha (h₁.links x (Schema.mem_links_of_property hx))
            (h₂.links e (Schema.mem_links_of_extras (extraSchema?_eq_some.1 he))) place
      · exact .pure ha.tracks
  · next y _ hy =>
      split
      · next e he =>
          exact drifts_conjoinChildren h ha
            (h₁.links e (Schema.mem_links_of_extras (extraSchema?_eq_some.1 he)))
            (h₂.links y (Schema.mem_links_of_property hy)) place
      · exact .pure ha.tracks
  · exact .pure ha.tracks

theorem drifts_conjoinProperties (ha : Labelled O ν ℓ a) {keys : List String}
    (hkeys : ∀ k ∈ keys, k ∈ mergedKeys s₁ s₂) (merged : Dict String SchemaId) (base : Pointer) :
    Drifts O ν ℓ a (conjoinProperties solve s₁ s₂ base keys merged) := by
  induction keys generalizing merged a ℓ with
  | nil => exact .pure ha.tracks
  | cons key keys ih =>
      unfold conjoinProperties
      have hscope : Scoped a s₁ s₂ base fun _ => True := fun _ _ _ _ _ _ => trivial
      refine .bind ha (drifts_conjoinProperty h h₁ h₂ ha key _)
        (runs_conjoinProperty h.sound ha.toLawful h₁ h₂ hscope (hkeys key (by simp))
          fun _ hq => ⟨key, hq⟩) (fun child => ?_) fun child b ℓ' hb hab _ => ?_
      · split
        · exact keeps_conjoinProperties h.keeps _ _ _ _ _
        · exact keeps_pure _
      split
      · exact ih (h₁.mono hab.next) (h₂.mono hab.next) hb (fun k hk => hkeys k (by simp [hk])) _
      · exact .pure hb.tracks

end Parts

/-! ## Alternatives -/

theorem drifts_crossPairs (h : Drifting O ν solve) (ha : Labelled O ν ℓ a) (place : Pointer)
    {pairs : List (SchemaId × SchemaId)} (hpairs : ∀ e ∈ pairs, e.1 < a.next ∧ e.2 < a.next)
    (found : List SchemaId) : Drifts O ν ℓ a (crossPairs solve place pairs found) := by
  induction pairs generalizing found a ℓ with
  | nil => exact .pure ha.tracks
  | cons e rest ih =>
      obtain ⟨hl, hr⟩ := hpairs e (by simp)
      unfold crossPairs
      refine h.conjoin_bind ha hl hr (fun branch => ?_) fun branch b ℓ' hb hab _ => ?_
      · split <;> exact keeps_crossPairs h.keeps _ _ _
      have hrest : ∀ e ∈ rest, e.1 < b.next ∧ e.2 < b.next := fun e he =>
        (hpairs e (by simp [he])).imp (Nat.lt_of_lt_of_le · hab.next)
          (Nat.lt_of_lt_of_le · hab.next)
      split <;> exact ih hb hrest _

theorem drifts_cross (h : Drifting O ν solve) (ha : Labelled O ν ℓ a) (place : Pointer)
    {left right : List SchemaId} (hl : ∀ l ∈ left, l < a.next) (hr : ∀ r ∈ right, r < a.next) :
    Drifts O ν ℓ a (cross solve left right place) := by
  refine drifts_crossPairs h ha place (fun e he => ?_) []
  obtain ⟨l, hmem, r, hmem', rfl⟩ : ∃ l ∈ left, ∃ r ∈ right, (l, r) = e := by
    simpa only [List.mem_flatMap, List.mem_map] using he
  exact ⟨hl l hmem, hr r hmem'⟩

theorem drifts_survivors (h : Drifting O ν solve) (ha : Labelled O ν ℓ a) {own : SchemaId}
    (hown : own < a.next) (group : Pointer) (i : Nat) {ms : List SchemaId}
    (hms : ∀ m ∈ ms, m < a.next) : Drifts O ν ℓ a (survivors solve own group i ms) := by
  induction ms generalizing a ℓ i with
  | nil => exact .pure ha.tracks
  | cons m ms ih =>
      unfold survivors
      refine h.conjoin_bind ha (hms m (by simp)) hown (fun branch => ?_)
        fun branch b ℓ' hb hab _ => ?_
      · exact (keeps_survivors h.keeps _ _ _ _).bind fun _ => keeps_pure _
      have hown' := Nat.lt_of_lt_of_le hown hab.next
      have hms' : ∀ m ∈ ms, m < b.next := fun m hm =>
        Nat.lt_of_lt_of_le (hms m (by simp [hm])) hab.next
      exact .bind hb (ih hb hown' (i + 1) hms')
        (runs_survivors (Q := fun _ => True) h.sound hb.toLawful hown' group (i + 1) hms'
          fun _ _ => trivial) (fun _ => keeps_pure _) fun _ _ _ hc _ _ => .pure hc.tracks

theorem drifts_conjoinAll (h : Drifting O ν solve) (ha : Labelled O ν ℓ a) {own : SchemaId}
    (hown : own < a.next) (place : Pointer) {ms : List SchemaId} (hms : ∀ m ∈ ms, m < a.next) :
    Drifts O ν ℓ a (conjoinAll solve place own ms) := by
  induction ms generalizing own a ℓ with
  | nil => exact .pure ha.tracks
  | cons m ms ih =>
      unfold conjoinAll
      refine h.conjoin_bind ha hown (hms m (by simp)) (fun next => ?_)
        fun next b ℓ' hb hab hnext => ?_
      · split
        · exact keeps_conjoinAll h.keeps _ _ _
        · exact keeps_pure _
      split
      · exact ih hb (hb.isForm_lt (hnext _ rfl)) fun m hm =>
          Nat.lt_of_lt_of_le (hms m (by simp [hm])) hab.next
      · exact .pure hb.tracks

/-! ## Conjunctions -/

theorem drifts_planSides (h : Drifting O ν solve) (ha : Labelled O ν ℓ a) (hx : a.IsForm x)
    (hy : a.IsForm y) (h₁ : a.schema x = s₁) (h₂ : a.schema y = s₂) (own : Schema)
    (place : Pointer) : Drifts O ν ℓ a (planSides solve x y s₁ s₂ own place) := by
  unfold planSides
  split
  · exact .pure ha.tracks
  have hside : ∀ {z s}, a.IsForm z → a.schema z = s →
      ∀ l ∈ (if s.anyOf.isEmpty then [z] else s.anyOf), l < a.next := by
    rintro z _ hz rfl l hl
    exact ha.isForm_lt (isForm_of_mem_sides ha.toWellFormed hz l hl)
  refine .bind ha (drifts_cross h ha _ (hside hx h₁) (hside hy h₂))
    (runs_cross (Q := fun _ => True) h.sound ha.toLawful (hside hx h₁) (hside hy h₂) _
      fun _ => trivial) (fun bs => ?_) fun bs b ℓ' hb _ _ => ?_
  · split <;> exact keeps_pure _
  · split <;> exact .pure hb.tracks

theorem drifts_planForms (h : Drifting O ν solve) (ha : Labelled O ν ℓ a) (hx : a.IsForm x)
    (hy : a.IsForm y) (place : Pointer) :
    Drifts O ν ℓ a (planForms solve x y (a.schema x) (a.schema y) place) := by
  have hp₁ := ha.proper x
  have hp₂ := ha.proper y
  have hscope : ∀ {t : Arena},
      Scoped t (a.schema x) (a.schema y) place fun _ => True := fun _ _ _ _ _ _ => trivial
  unfold planForms
  split
  · exact .pure ha.tracks
  split
  · exact .pure ha.tracks
  refine .after_still ha.tracks (Work.Ends.mono (ends_combineKeywords _ _ place)
    (fun _ _ h => h) fun _ _ h => h.1) fun k _ => ?_
  refine .bind ha (drifts_conjoinItems h hp₁ hp₂ ha place)
    (runs_conjoinItems h.sound ha.toLawful hp₁ hp₂ hscope) (fun i => ?_)
    fun i b ℓb hb hab _ => ?_
  · split
    · refine (keeps_conjoinExtras h.keeps _ _ _).bind fun e => ?_
      refine (keeps_conjoinProperties h.keeps _ _ _ _ _).bind fun ps => ?_
      split
      · exact keeps_planSides h.keeps _ _ _ _ _ _
      · exact keeps_pure _
    · exact keeps_pure _
  split
  swap
  · exact .pure hb.tracks
  have hp₁b := hp₁.mono hab.next
  have hp₂b := hp₂.mono hab.next
  refine .bind hb (drifts_conjoinExtras h hp₁b hp₂b hb place)
    (runs_conjoinExtras h.sound hb.toLawful hp₁b hp₂b hscope) (fun e => ?_)
    fun e c ℓc hc hbc _ => ?_
  · refine (keeps_conjoinProperties h.keeps _ _ _ _ _).bind fun ps => ?_
    split
    · exact keeps_planSides h.keeps _ _ _ _ _ _
    · exact keeps_pure _
  have hp₁c := hp₁b.mono hbc.next
  have hp₂c := hp₂b.mono hbc.next
  refine .bind hc (drifts_conjoinProperties h hp₁c hp₂c hc (fun _ hk => hk) _ _)
    (runs_conjoinProperties h.sound hc.toLawful hp₁c hp₂c hscope (fun _ hk => hk) .empty
      fun q hq => ⟨_, hq⟩) (fun ps => ?_) fun ps d ℓd hd hcd _ => ?_
  · split
    · exact keeps_planSides h.keeps _ _ _ _ _ _
    · exact keeps_pure _
  split
  swap
  · exact .pure hd.tracks
  have had := (hab.toGrows.trans hbc.toGrows).trans hcd.toGrows
  exact drifts_planSides h hd (had.form hx) (had.form hy) (had.schema x (ha.isForm_lt hx))
    (had.schema y (ha.isForm_lt hy)) _ place

/-- A conjunction of which one operand is left out of account is remembered, whatever it is. -/
theorem drifts_remember (ha : Labelled O ν ℓ a) (hx : x < a.next) (hy : y < a.next)
    (hout : ¬(Inner O a x ∧ Inner O a y)) (place : Pointer) (r : Option SchemaId) :
    Drifts O ν ℓ a (do
      Work.modify fun s => { s with conjunctions := s.conjunctions.insert (x, y, place) r }
      return r) := by
  intro _
  refine ⟨ℓ, ⟨.refl a ℓ, fun i hle hlt => absurd hlt (Nat.not_lt.2 hle)⟩, ?_⟩
  exact TracksBut.remember (ha.tracks.mono (fun _ _ _ => False.elim) fun _ => id) hx hy
    fun hix hiy => absurd ⟨hix, hiy⟩ hout

theorem drifts_conjoinRemembered (h : Drifting O ν solve) (ha : Labelled O ν ℓ a)
    (hx : a.IsForm x) (hy : a.IsForm y) (place : Pointer) :
    Drifts O ν ℓ a (do
      match ← Work.view fun s => s.conjunctions.get? (x, y, place) with
      | some known => return known
      | none =>
        let result ← conjoinForms solve x y place
        Work.modify fun s =>
          { s with conjunctions := s.conjunctions.insert (x, y, place) result }
        return result) := by
  have hlx := ha.isForm_lt hx
  have hly := ha.isForm_lt hy
  by_cases hin : Inner O a x ∧ Inner O a y
  · exact (follows_conjoinRemembered (A := ⟨fun _ _ => True, fun _ _ _ => True⟩) h.toGuided ha
      (named_id.2 ⟨hin.1, rfl⟩) (named_id.2 ⟨hin.2, rfl⟩) hx hy trivial).drifts
  refine .view_bind ?_
  split
  · exact .pure ha.tracks
  simp only [conjoinForms_eq, bind_assoc]
  refine .view_bind (.view_bind ?_)
  have hkeeps : ∀ r, Keeps (do
      Work.modify fun s => { s with conjunctions := s.conjunctions.insert (x, y, place) r }
      return r) := fun r =>
    .bind (.modify fun _ => ⟨Nat.le_refl _, fun _ _ => rfl, fun _ _ => rfl⟩) fun _ => keeps_pure _
  refine .bind ha (drifts_planForms h ha hx hy place)
    (runs_planForms h.sound ha.toLawful hx hy place)
    (fun plan => (keeps_finishForms _ _ _ _ _).bind hkeeps) fun plan b ℓb hb hab hfits => ?_
  have hlx' := Nat.lt_of_lt_of_le hlx hab.next
  have hly' := Nat.lt_of_lt_of_le hly hab.next
  have hout : ∀ {c}, b.Grows c → ¬(Inner O c x ∧ Inner O c y) := fun hbc hinner => hin
    ⟨(inner_iff ha.toWellFormed (Nat.le_trans hab.next hbc.next)
        (fun i hi => (hab.toGrows.trans hbc).schema i hi) hlx).1 hinner.1,
      (inner_iff ha.toWellFormed (Nat.le_trans hab.next hbc.next)
        (fun i hi => (hab.toGrows.trans hbc).schema i hi) hly).1 hinner.2⟩
  cases plan with
  | answer r => exact drifts_remember hb hlx' hly' (hout (.refl b)) place r
  | demands own =>
      refine .bind hb (drifts_reuseOrStore hb hfits.proper.links)
        (runs_reuseOrStore (Q := fun _ => True) hb.toLawful (hab.form hx)
          (hab.schema x hlx) (hab.schema y hly) hfits) hkeeps fun r c ℓc hc hbc _ => ?_
      exact drifts_remember hc (Nat.lt_of_lt_of_le hlx' hbc.next)
        (Nat.lt_of_lt_of_le hly' hbc.next) (hout hbc.toGrows) place r

theorem drifts_conjoin (h : Drifting O ν solve) (ha : Labelled O ν ℓ a) (hx : x < a.next)
    (hy : y < a.next) (place : Pointer) : Drifts O ν ℓ a (conjoin solve x y place) := by
  unfold conjoin
  refine h.normalize_bind ha hx (fun fx => ?_) fun fx b ℓb hb hab hfx => ?_
  · split
    · refine (h.keeps _).bind fun fy => ?_
      split
      · split
        · exact keeps_pure _
        · exact keeps_conjoinRemembered h.keeps _ _ _
      · exact keeps_pure _
    · exact keeps_pure _
  split
  swap
  · exact .pure hb.tracks
  refine h.normalize_bind hb (Nat.lt_of_lt_of_le hy hab.next) (fun fy => ?_)
    fun fy c ℓc hc hbc hfy => ?_
  · split
    · split
      · exact keeps_pure _
      · exact keeps_conjoinRemembered h.keeps _ _ _
    · exact keeps_pure _
  split
  swap
  · exact .pure hc.tracks
  split
  · exact .pure hc.tracks
  · exact drifts_conjoinRemembered h hc (hc.form _ _ (hbc.done x _ hfx)) (hc.form _ _ hfy) place

/-! ## Normal forms -/

theorem drifts_narrowed (h : Drifting O ν solve) (ha : Labelled O ν ℓ a)
    (hs : s.Proper (fun _ => True) a.next) (hx : x < a.next) :
    Drifts O ν ℓ a (narrowed solve s x) := by
  unfold narrowed
  refine h.normalize_bind ha hx (fun inner => ?_) fun inner b ℓb hb hab hinner => ?_
  · split
    · split
      · exact keeps_pure _
      · refine (keeps_store _).bind fun narrowing => ?_
        split
        · exact h.keeps _
        · exact keeps_pure _
    · exact keeps_pure _
  split
  swap
  · exact .pure hb.tracks
  split
  · exact .pure hb.tracks
  next ks hks =>
  refine .bind hb (drifts_store hb nofun)
    (runs_store hb.toLawful (storable_kindsAlone s.pointer (hs.kinds ks hks)))
    (fun narrowing => ?_) fun narrowing c ℓc hc hbc hstored => ?_
  · split
    · exact h.keeps _
    · exact keeps_pure _
  split
  · exact h.task _ hc ⟨hc.isForm_lt (hc.form _ _ (hbc.done x _ hinner)),
      hc.isForm_lt hstored.isForm⟩
  · exact .pure hc.tracks

theorem drifts_gather (ha : Labelled O ν ℓ a) (s : Schema) (own : SchemaId) {bs : List SchemaId}
    (hbs : ∀ c ∈ bs, c < a.next) :
    Drifts O ν ℓ a (match bs with
      | [] => return if s.anyOf.isEmpty && s.oneOf.isEmpty then some own else none
      | [only] => return some only
      | branches => do
        let demands ← Work.view (·.schema own)
        store { demands with pointer := s.pointer, anyOf := branches }) := by
  split
  · exact .pure ha.tracks
  · exact .pure ha.tracks
  refine .view_bind (drifts_store ha ?_)
  have hnamed := NamedBy.withAnyOf (Q := (· < a.next)) (ℓ := ℓ) (s := a.schema own)
    ⟨(ha.proper own).links, rfl⟩ (named_ids.2 ⟨hbs, rfl⟩) s.pointer
  exact hnamed.known

theorem drifts_withAlternatives (h : Drifting O ν solve) (ha : Labelled O ν ℓ a)
    (hs : s.Proper (fun _ => True) a.next) {own : SchemaId} (hown : own < a.next) :
    Drifts O ν ℓ a (withAlternatives solve s own) := by
  have hany : ∀ m ∈ s.anyOf, m < a.next := fun m hm =>
    hs.links m (Schema.mem_links_of_member (by simp [Schema.members, hm]))
  have hone : ∀ m ∈ s.oneOf, m < a.next := fun m hm =>
    hs.links m (Schema.mem_links_of_member (by simp [Schema.members, hm]))
  unfold withAlternatives
  refine .bind ha (drifts_survivors h ha hown _ 0 hany)
    (runs_survivors (Q := fun _ => True) h.sound ha.toLawful hown _ 0 hany fun _ _ => trivial)
    (fun as => ?_) fun as b ℓb hb hab has => ?_
  · split
    · exact keeps_pure _
    · exact (keeps_survivors h.keeps _ _ _ _).bind fun os => keeps_branches h.keeps s own as os
  split
  · exact .pure hb.tracks
  have hown' := Nat.lt_of_lt_of_le hown hab.next
  have hone' : ∀ m ∈ s.oneOf, m < b.next := fun m hm => Nat.lt_of_lt_of_le (hone m hm) hab.next
  refine .bind hb (drifts_survivors h hb hown' _ 0 hone')
    (runs_survivors (Q := fun _ => True) h.sound hb.toLawful hown' _ 0 hone' fun _ _ => trivial)
    (fun os => keeps_branches h.keeps s own as os) fun os c ℓc hc hbc hos => ?_
  split
  · exact .pure hc.tracks
  -- the survivors of one group, of the other, or the pairs of both
  have has' : ∀ r ∈ as, r < c.next := fun r hr =>
    Nat.lt_of_lt_of_le (hb.isForm_lt (has.isForm r hr)) hbc.next
  have hos' : ∀ r ∈ os, r < c.next := fun r hr => hc.isForm_lt (hos.isForm r hr)
  dsimp only
  split
  · exact drifts_gather hc s own hos'
  split
  · exact drifts_gather hc s own has'
  refine .bind hc (drifts_cross h hc _ has' hos')
    (runs_cross (Q := fun _ => True) h.sound hc.toLawful has' hos' _ fun _ => trivial)
    (fun bs => keeps_gather s own bs) fun bs d ℓd hd hcd hbs => ?_
  exact drifts_gather hd s own fun r hr => hd.isForm_lt (hbs.isForm r hr)

theorem drifts_normalForm (h : Drifting O ν solve) (ha : Labelled O ν ℓ a) (x : SchemaId) :
    Drifts O ν ℓ a (normalForm solve x) := by
  have hs := ha.proper x
  unfold normalForm
  refine .view_bind ?_
  dsimp only
  split
  · exact .pure ha.tracks
  split
  · next c hc =>
      exact drifts_narrowed h ha hs
        (hs.links c (Schema.mem_links_of_member (Schema.mem_members_of_soleChild? hc)))
  have hall : ∀ m ∈ (a.schema x).allOf, m < a.next := fun m hm =>
    hs.links m (Schema.mem_links_of_member (by simp [Schema.members, hm]))
  refine .bind ha (drifts_store ha (storable_baseOf hs).proper.links)
    (runs_store (Q := fun _ => True) ha.toLawful (storable_baseOf hs)) (fun start => ?_)
    fun start b ℓb hb hab hstored => ?_
  · split
    · refine (keeps_conjoinAll h.keeps _ _ _).bind fun own => ?_
      split
      · exact keeps_withAlternatives h.keeps _ _
      · exact keeps_pure _
    · exact keeps_pure _
  split
  swap
  · exact .pure hb.tracks
  have hall' : ∀ m ∈ (a.schema x).allOf, m < b.next := fun m hm =>
    Nat.lt_of_lt_of_le (hall m hm) hab.next
  refine .bind hb (drifts_conjoinAll h hb (hb.isForm_lt hstored.isForm) _ hall')
    (runs_conjoinAll (Q := fun _ => True) h.sound hb.toLawful hstored.isForm _ hall'
      fun _ _ => trivial) (fun own => ?_) fun own c ℓc hc hbc hjoined => ?_
  · split
    · exact keeps_withAlternatives h.keeps _ _
    · exact keeps_pure _
  split
  swap
  · exact .pure hc.tracks
  exact drifts_withAlternatives h hc ((hs.mono hab.next).mono hbc.next)
    (hc.isForm_lt (hjoined.isForm (hbc.form hstored.isForm)))

/-- What is blocked while a schema that is left out of account is under normalization is so
    anyway. -/
theorem Blocked.leave_outer {cx : Nat → Option α} (hx : ¬Inner O a x)
    (h : Blocked O ν ℓ (a.enter x) cx) : Blocked O ν ℓ a cx := by
  refine h.imp_right fun ⟨z, hinner, hz, hneeds⟩ => ⟨z, inner_enter.1 hinner, ?_, hneeds⟩
  rw [progress_enter] at hz
  split at hz
  · next heq => exact absurd (inner_enter.1 hinner) (heq ▸ hx)
  · exact hz

theorem drifts_normalize (h : Drifting O ν solve) (ha : Labelled O ν ℓ a) (hx : x < a.next) :
    Drifts O ν ℓ a (normalize solve x) := by
  by_cases hin : Inner O a x
  · exact (follows_normalize h.toGuided ha (named_id.2 ⟨hin, rfl⟩)).drifts
  unfold normalize
  refine .view_bind ?_
  split
  · exact .pure ha.tracks
  · exact .view_bind (.fault ha.tracks)
  next hnone =>
  have henter : Labelled O ν ℓ (a.enter x) :=
    ha.after (lawful_enter ha.toLawful hx hnone) (grows_enter ha.toWellFormed hnone)
      (ha.tracks.enter hnone)
  have hruns : Steps (normalForm solve x) (a.enter x) fun r t =>
      FormJoined Law.traced t ((a.enter x).schema x) r :=
    runs_normalForm h.sound henter.toLawful fun _ _ => trivial
  refine Work.ends_bind.2 (Work.ends_thenAlways.2 ?_)
  change (normalForm solve x).Ends (a.enter x) _ _
  refine Work.Ends.mono (Work.Ends.and hruns (drifts_normalForm h henter x)) ?_ ?_
  · rintro r b ⟨⟨⟨hb, hab⟩, hr⟩, hok⟩ hp
    have hpath : b.pending = a.pending ++ [x] := hab.pending
    obtain ⟨ℓ', hcarries, htracks⟩ := hok (promptBut_settle.1 hp)
    refine ⟨ℓ', ⟨hcarries.ext, fun i hle hi => hcarries.form i hle (next_settle .. ▸ hi)⟩, ?_⟩
    refine htracks.settle (hb.inProgress hpath)
      (fun n hn => FormJoined.isForm hb.toWellFormed (hn ▸ hr)) fun hinner => absurd ?_ hin
    exact inner_enter.1 ((inner_iff henter.toWellFormed hab.next hab.schema hx).1 hinner)
  · rintro e b ⟨⟨hb, hab⟩, hbad⟩ hp
    have hpath : b.pending = a.pending ++ [x] := hab.pending
    refine (hbad (promptBut_settle.1 hp)).imp_right fun ⟨ℓ', hwreck⟩ => ⟨ℓ',
      ⟨hwreck.ext, fun i hle hi => hwreck.form i hle (next_settle .. ▸ hi)⟩, ?_⟩
    refine (hwreck.tracks.settle_error (hb.inProgress hpath) e).mono (fun _ _ _ => id) ?_
    rintro m (hm | ⟨hinner, -⟩)
    · exact hm.leave_outer hin
    · exact absurd
        (inner_enter.1 ((inner_iff henter.toWellFormed hab.next hab.schema hx).1 hinner)) hin

/-- Every supply of nested calls makes a solver that leaves right labels whatever it is asked for. -/
theorem drifting_solve (O : Set SchemaId) (ν : Nomenclature) (calls : Nat) :
    Drifting O ν (Arena.solve calls) := by
  induction calls with
  | zero => exact { guided_solve ν 0 with task := fun _ _ _ _ => .inl rfl }
  | succ calls ih =>
      refine { guided_solve ν (calls + 1) with task := fun task ha hvalid => ?_ }
      cases task with
      | normalize id => exact drifts_normalize ih ha hvalid
      | conjoin x y place => exact drifts_conjoin ih ha hvalid.1 hvalid.2 place

end ApiModel.Arena
