/-
  ApiModel.Proofs.Schema.Cycle

  Every cycle that a request for a normal form reports is a cycle of combinators. No task asks for a
  schema that may not be asked for, so each step traces its failures when the solver that it hands its
  tasks to does, and so does every supply of nested calls.
-/
import ApiModel.Proofs.Schema.Trail
import ApiModel.Proofs.Schema.Settled

namespace ApiModel.Arena

open Work (Fails)

variable {P : Json → Prop} {a b o t : Arena} {c m n x y z root : SchemaId} {solve : Solver}

/-! ## Where the work may go -/

/-- A lawful arena that the arena `o` has grown into. -/
structure Stage (P : Json → Prop) (o a : Arena) : Prop extends
    a.Lawful (provenance (P := P)) where
  grows : Grows o a

theorem Stage.next (hs : Stage P o a) (hb : b.Lawful (provenance (P := P))) (hab : Grows a b) :
    Stage P o b :=
  { hb with grows := hs.grows.trans hab }

/-- A schema that exists and leads to nothing but what `root` led to. -/
structure Inside (o : Arena) (root : SchemaId) (a : Arena) (x : SchemaId) : Prop where
  lt : x < a.next
  within : Within o root a x

/-- A schema that may be asked for besides. -/
structure Admitted (o : Arena) (root : SchemaId) (a : Arena) (x : SchemaId) : Prop extends
    Inside o root a x where
  ready : a.Ready x

theorem Within.mono (hx : Within o root a x) (ha : a.WellFormed P) (hab : Grows a b)
    (hlt : x < a.next) : Within o root b x :=
  fun z hz => hx z ((leads_iff ha hab hlt).1 hz)

theorem Inside.mono (hx : Inside o root a x) (ha : a.WellFormed P) (hab : Grows a b) :
    Inside o root b x :=
  ⟨Nat.lt_of_lt_of_le hx.lt hab.next, hx.within.mono ha hab hx.lt⟩

theorem Admitted.mono (hx : Admitted o root a x) (ha : a.WellFormed P) (hb : b.WellFormed P)
    (hab : Advances a b) : Admitted o root b x :=
  ⟨hx.toInside.mono ha hab.toGrows, hx.ready.mono hab ha hb hx.lt⟩

theorem Inside.link (ha : a.WellFormed P) (hx : Inside o root a x) (hxy : a.Link x y) :
    Inside o root a y :=
  ⟨ha.link_lt hxy, fun z hz => hx.within z (hz.head hxy)⟩

/-- A normal form may always be asked for. -/
theorem admitted_form (ha : a.WellFormed P) (hn : a.IsForm n) (hin : Within o root a n) :
    Admitted o root a n :=
  ⟨⟨ha.isForm_lt hn, hin⟩, hn.ready⟩

theorem admitted_of_done (ha : a.Lawful (provenance (P := P))) (hx : Within o root a x)
    (hn : a.progress.get? x = some (.done (some n))) : Admitted o root a n :=
  admitted_form ha.toWellFormed (ha.form x n hn) fun z hz => hx z (Trait.has_of_done ha hn hz)

theorem Joined.admitted (ha : a.Lawful (provenance (P := P))) (hx : Within o root a x)
    (hy : Within o root a y) (hj : Joined (provenance (P := P)) a x y (some n)) :
    Admitted o root a n :=
  admitted_form ha.toWellFormed hj.isForm fun z hz =>
    (Trait.of_joined ha hj hz).elim (hx z) (hy z)

theorem Crossed.admitted (ha : a.Lawful (provenance (P := P))) {left right bs : List SchemaId}
    (hl : ∀ l ∈ left, Within o root a l) (hr : ∀ r ∈ right, Within o root a r)
    (hbs : Crossed (provenance (P := P)) a left right bs) : ∀ c ∈ bs, Admitted o root a c := by
  intro c hc
  obtain ⟨l, hmeml, r, hmemr, hj⟩ := hbs.sound c hc
  exact hj.admitted ha (hl l hmeml) (hr r hmemr)

/-- The schemas of a task may be asked for. -/
def AdmittedTask (o : Arena) (root : SchemaId) (a : Arena) : Task → Prop
  | .normalize id => Admitted o root a id
  | .conjoin x y _ => Admitted o root a x ∧ Admitted o root a y

/-- A sound solver that, asked for what may be asked for, reports cycles of combinators only. -/
structure Tracing (P : Json → Prop) (o : Arena) (root : SchemaId) (solve : Solver) : Prop where
  sound : Sound (provenance (P := P)) solve
  fails : ∀ task a, Stage P o a → AdmittedTask o root a task →
    Fails (solve task) a (Traced o root)

namespace Tracing

variable {β : Type} {f : Option SchemaId → ArenaWork β}

theorem normalize_bind (h : Tracing P o root solve) (hs : Stage P o a)
    (hx : Admitted o root a x)
    (hf : ∀ r b, Stage P o b → Advances a b → b.progress.get? x = some (.done r) →
      Fails (f r) b (Traced o root)) :
    Fails (solve (.normalize x) >>= f) a (Traced o root) :=
  .bind (h.fails _ a hs hx) (h.sound.normalize (Q := fun _ => True) hs.toLawful hx.lt
    fun _ _ => trivial) fun r b hb hab hr => hf r b (hs.next hb hab.toGrows) hab.toAdvances hr

theorem conjoin_bind (h : Tracing P o root solve) (hs : Stage P o a) {place : Pointer}
    (hx : Admitted o root a x) (hy : Admitted o root a y)
    (hf : ∀ r b, Stage P o b → Advances a b → Joined (provenance (P := P)) b x y r →
      Fails (f r) b (Traced o root)) :
    Fails (solve (.conjoin x y place) >>= f) a (Traced o root) :=
  .bind (h.fails (.conjoin x y place) a hs ⟨hx, hy⟩)
    (h.sound.conjoin (Q := fun _ => True) hs.toLawful hx.lt hy.lt fun _ _ => trivial)
    fun r b hb hab hr => hf r b (hs.next hb hab.toGrows) hab.toAdvances hr

end Tracing

theorem traced_unsupported (p : Pointer) (text : String) :
    Traced o root (.fault (.unsupported p text)) := by
  rintro trail ⟨⟩

/-! ## Child schemas -/

/-- Child schemas are asked for only where the guard lets them through. -/
theorem fails_conjoinChildren (h : Tracing P o root solve) (hs : Stage P o a)
    (hx : Inside o root a x) (hy : Inside o root a y) (place : Pointer) :
    Fails (conjoinChildren solve x y place) a (Traced o root) := by
  unfold conjoinChildren
  split
  · exact .pure
  refine .view_bind ?_
  split
  · exact .bind (fails_putOff place _) (runs_putOff (Q := fun _ => True) hs.toLawful hx.lt hy.lt
      place) fun _ _ _ _ _ => .pure
  next hguard =>
  rw [Bool.or_eq_true, not_or, Bool.not_eq_true, Bool.not_eq_true] at hguard
  have hwf := hs.toWellFormed
  have hx' : Admitted o root a x := ⟨hx, ready_of_reachesInProgress hwf hx.lt hguard.1⟩
  have hy' : Admitted o root a y := ⟨hy, ready_of_reachesInProgress hwf hy.lt hguard.2⟩
  refine h.normalize_bind hs hx' fun fx b hb hab hfx => ?_
  have hyb := hy'.mono hwf hb.toWellFormed hab
  refine h.normalize_bind hb hyb fun fy c hc hbc hfy => ?_
  have hxc := (hx.mono hwf hab.toGrows).mono hb.toWellFormed hbc.toGrows
  have hyc := hyb.toInside.mono hb.toWellFormed hbc.toGrows
  split
  · next nx ny =>
      have hnx := admitted_of_done hc.toLawful hxc.within (hbc.done x _ hfx)
      have hny := admitted_of_done hc.toLawful hyc.within hfy
      refine h.conjoin_bind hc hnx hny fun r t _ _ _ => ?_
      cases r with
      | none => exact .pure
      | some r => exact .pure
  · exact .pure

section Parts

variable {s₁ s₂ : Schema}

/-- The child schemas of both sides are inside. -/
def PartsInside (o : Arena) (root : SchemaId) (a : Arena) (s₁ s₂ : Schema) : Prop :=
  ∀ c, c ∈ s₁.links ∨ c ∈ s₂.links → Inside o root a c

theorem PartsInside.mono (h : PartsInside o root a s₁ s₂) (ha : a.WellFormed P)
    (hab : Grows a b) : PartsInside o root b s₁ s₂ :=
  fun c hc => (h c hc).mono ha hab

theorem fails_conjoinItems (h : Tracing P o root solve) (hs : Stage P o a)
    (hin : PartsInside o root a s₁ s₂) (h₁ : s₁.Proper P a.next) (h₂ : s₂.Proper P a.next)
    (place : Pointer) : Fails (conjoinItems solve s₁ s₂ place) a (Traced o root) := by
  unfold conjoinItems
  split
  · next x y hx hy =>
      have hmx := Schema.mem_links_of_items hx
      have hmy := Schema.mem_links_of_items hy
      refine .bind (fails_conjoinChildren h hs (hin x (.inl hmx)) (hin y (.inr hmy)) _)
        (runs_conjoinChildren (Q := fun _ => True) h.sound hs.toLawful (h₁.links x hmx)
          (h₂.links y hmy) fun _ _ => trivial) fun r t _ _ _ => ?_
      cases r with
      | none => exact .pure
      | some z => exact .pure
  · exact .pure

theorem fails_conjoinExtras (h : Tracing P o root solve) (hs : Stage P o a)
    (hin : PartsInside o root a s₁ s₂) (h₁ : s₁.Proper P a.next) (h₂ : s₂.Proper P a.next)
    (place : Pointer) : Fails (conjoinExtras solve s₁ s₂ place) a (Traced o root) := by
  unfold conjoinExtras
  split
  case h_7 x y hx hy =>
    have hmx := Schema.mem_links_of_extras hx
    have hmy := Schema.mem_links_of_extras hy
    refine .bind (fails_conjoinChildren h hs (hin x (.inl hmx)) (hin y (.inr hmy)) _)
      (runs_conjoinChildren (Q := fun _ => True) h.sound hs.toLawful (h₁.links x hmx)
        (h₂.links y hmy) fun _ _ => trivial) fun r t _ _ _ => ?_
    cases r with
    | none => exact .pure
    | some z => exact .pure
  all_goals exact .pure

theorem fails_conjoinProperty (h : Tracing P o root solve) (hs : Stage P o a)
    (hin : PartsInside o root a s₁ s₂) (key : String) (place : Pointer) :
    Fails (conjoinProperty solve s₁ s₂ key place) a (Traced o root) := by
  have hextra : ∀ {s : Schema} {e}, extraSchema? s = some e → e ∈ s.links := fun he =>
    Schema.mem_links_of_extras (extraSchema?_eq_some.1 he)
  unfold conjoinProperty
  split
  · next x y hx hy =>
      exact fails_conjoinChildren h hs (hin x (.inl (Schema.mem_links_of_property hx)))
        (hin y (.inr (Schema.mem_links_of_property hy))) place
  · next x hx hy =>
      split
      · next e he =>
          exact fails_conjoinChildren h hs (hin x (.inl (Schema.mem_links_of_property hx)))
            (hin e (.inr (hextra he))) place
      · exact .pure
  · next y hx hy =>
      split
      · next e he =>
          exact fails_conjoinChildren h hs (hin e (.inl (hextra he)))
            (hin y (.inr (Schema.mem_links_of_property hy))) place
      · exact .pure
  · exact .pure

theorem fails_conjoinProperties (h : Tracing P o root solve) (hs : Stage P o a)
    (hin : PartsInside o root a s₁ s₂) (h₁ : s₁.Proper P a.next) (h₂ : s₂.Proper P a.next)
    {keys : List String} (hkeys : ∀ k ∈ keys, k ∈ mergedKeys s₁ s₂)
    (merged : Dict String SchemaId) (base : Pointer) :
    Fails (conjoinProperties solve s₁ s₂ base keys merged) a (Traced o root) := by
  induction keys generalizing merged a with
  | nil => exact .pure
  | cons key keys ih =>
      unfold conjoinProperties
      have hscope : Scoped a s₁ s₂ base fun _ => True := fun _ _ _ _ _ _ => trivial
      have hruns := runs_conjoinProperty h.sound hs.toLawful h₁ h₂ hscope (hkeys key (by simp))
        fun _ hq => ⟨key, hq⟩
      refine .bind (fails_conjoinProperty h hs hin key _) hruns fun child b hb hab _ => ?_
      cases child with
      | none => exact .pure
      | some child =>
          exact ih (hs.next hb hab.toGrows) (hin.mono hs.toWellFormed hab.toGrows)
            (h₁.mono hab.next) (h₂.mono hab.next) (fun k hk => hkeys k (by simp [hk])) _

end Parts

/-! ## Alternatives -/

theorem fails_crossPairs (h : Tracing P o root solve) (hs : Stage P o a) (place : Pointer)
    {pairs : List (SchemaId × SchemaId)} (found : List SchemaId)
    (hpairs : ∀ e ∈ pairs, Admitted o root a e.1 ∧ Admitted o root a e.2) :
    Fails (crossPairs solve place pairs found) a (Traced o root) := by
  induction pairs generalizing found a with
  | nil => exact .pure
  | cons e rest ih =>
      obtain ⟨l, r⟩ := e
      obtain ⟨hl, hr⟩ := hpairs (l, r) (by simp)
      unfold crossPairs
      refine h.conjoin_bind hs hl hr fun branch b hb hab _ => ?_
      have hrest : ∀ e ∈ rest, Admitted o root b e.1 ∧ Admitted o root b e.2 := fun e he =>
        (hpairs e (by simp [he])).imp (·.mono hs.toWellFormed hb.toWellFormed hab)
          (·.mono hs.toWellFormed hb.toWellFormed hab)
      cases branch with
      | none => exact ih hb found hrest
      | some branch => exact ih hb _ hrest

theorem fails_cross (h : Tracing P o root solve) (hs : Stage P o a) (place : Pointer)
    {left right : List SchemaId} (hl : ∀ l ∈ left, Admitted o root a l)
    (hr : ∀ r ∈ right, Admitted o root a r) :
    Fails (cross solve left right place) a (Traced o root) := by
  refine fails_crossPairs h hs place [] fun e he => ?_
  simp only [List.mem_flatMap, List.mem_map] at he
  obtain ⟨l, hmeml, r, hmemr, rfl⟩ := he
  exact ⟨hl l hmeml, hr r hmemr⟩

theorem fails_survivors (h : Tracing P o root solve) (hs : Stage P o a) {own : SchemaId}
    (hown : Admitted o root a own) (group : Pointer) (i : Nat) {ms : List SchemaId}
    (hms : ∀ m ∈ ms, Admitted o root a m) :
    Fails (survivors solve own group i ms) a (Traced o root) := by
  induction ms generalizing i a with
  | nil => exact .pure
  | cons m ms ih =>
      unfold survivors
      refine h.conjoin_bind hs (hms m (by simp)) hown fun branch b hb hab _ => ?_
      have hown' := hown.mono hs.toWellFormed hb.toWellFormed hab
      have hms' : ∀ m ∈ ms, Admitted o root b m := fun m hm =>
        (hms m (by simp [hm])).mono hs.toWellFormed hb.toWellFormed hab
      exact .bind (ih hb hown' (i + 1) hms') (runs_survivors (Q := fun _ => True) h.sound
        hb.toLawful hown'.lt group (i + 1) (fun m hm => (hms' m hm).lt) fun _ _ => trivial)
        fun _ _ _ _ _ => .pure

theorem fails_conjoinAll (h : Tracing P o root solve) (hs : Stage P o a) {own : SchemaId}
    (hown : Admitted o root a own) (place : Pointer) {ms : List SchemaId}
    (hms : ∀ m ∈ ms, Admitted o root a m) :
    Fails (conjoinAll solve place own ms) a (Traced o root) := by
  induction ms generalizing own a with
  | nil => exact .pure
  | cons m ms ih =>
      unfold conjoinAll
      have hm := hms m (by simp)
      refine h.conjoin_bind hs hown hm fun next b hb hab hnext => ?_
      cases next with
      | none => exact .pure
      | some next =>
          have hwithin : ∀ {x}, Admitted o root a x → Within o root b x := fun hx =>
            hx.within.mono hs.toWellFormed hab.toGrows hx.lt
          exact ih hb (hnext.admitted hb.toLawful (hwithin hown) (hwithin hm)) fun m hm =>
            (hms m (by simp [hm])).mono hs.toWellFormed hb.toWellFormed hab

/-! ## Conjunctions -/

theorem within_of_mem_sides (hx : Within o root a x) : ∀ c ∈ a.sides x, Within o root a c :=
  fun _ hc z hz => hx z (Trait.of_mem_sides (T := lineage (P := fun _ => True)) hc hz)

/-- The last part of a conjunction; alternatives are normal forms. -/
theorem fails_conjoinSides (h : Tracing P o root solve) (hs : Stage P o a) {s₁ s₂ own : Schema}
    (hx : a.IsForm x) (hy : a.IsForm y) (hinx : Within o root a x) (hiny : Within o root a y)
    (h₁ : a.schema x = s₁) (h₂ : a.schema y = s₂) (place : Pointer) :
    Fails (if s₁.anyOf.isEmpty && s₂.anyOf.isEmpty then reuseOrStore x y s₁ s₂ own
      else do
        match ← cross solve (if s₁.anyOf.isEmpty then [x] else s₁.anyOf)
          (if s₂.anyOf.isEmpty then [y] else s₂.anyOf) place with
        | [] => return none
        | [only] => return some only
        | branches => reuseOrStore x y s₁ s₂ { own with anyOf := branches }) a
      (Traced o root) := by
  have hwf := hs.toWellFormed
  have hsides : ∀ {x s}, a.IsForm x → Within o root a x → a.schema x = s →
      ∀ c ∈ (if s.anyOf.isEmpty then [x] else s.anyOf), Admitted o root a c := by
    rintro x _ hx hin rfl c hc
    exact admitted_form hwf (isForm_of_mem_sides hwf hx c hc) (within_of_mem_sides hin c hc)
  have hleft := hsides hx hinx h₁
  have hright := hsides hy hiny h₂
  split
  · exact fails_reuseOrStore _ _ _ _
  refine .bind (fails_cross h hs place hleft hright) (runs_cross (Q := fun _ => True) h.sound
    hs.toLawful (fun l hl => (hleft l hl).lt) (fun r hr => (hright r hr).lt) place
    fun _ => trivial) fun bs b _ _ _ => ?_
  split
  · exact .pure
  · exact .pure
  · exact fails_reuseOrStore _ _ _ _

theorem fails_conjoinForms (h : Tracing P o root solve) (hs : Stage P o a) (hx : a.IsForm x)
    (hy : a.IsForm y) (hinx : Within o root a x) (hiny : Within o root a y) (place : Pointer) :
    Fails (conjoinForms solve x y place) a (Traced o root) := by
  have hwf := hs.toWellFormed
  have hltx := hs.isForm_lt hx
  have hlty := hs.isForm_lt hy
  have h₁ := hs.proper x
  have h₂ := hs.proper y
  have hin : PartsInside o root a (a.schema x) (a.schema y) := by
    rintro c (hc | hc)
    · exact Inside.link hwf ⟨hltx, hinx⟩ hc
    · exact Inside.link hwf ⟨hlty, hiny⟩ hc
  have hscope : ∀ {t : Arena},
      Scoped t (a.schema x) (a.schema y) place fun _ => True := fun _ _ _ _ _ _ => trivial
  unfold conjoinForms
  refine .view_bind (.view_bind ?_)
  split
  · exact .pure
  split
  · exact .pure
  -- part after part, with what the sides lead to carried along
  refine .bind (fails_combineKeywords traced_unsupported _ _ place)
    (runs_combineKeywords (Q := fun _ => True) hs.toLawful _ _ place) fun k b hb hab _ => ?_
  have hsb := hs.next hb hab.toGrows
  have h₁b := h₁.mono hab.next
  have h₂b := h₂.mono hab.next
  have hinb := hin.mono hwf hab.toGrows
  refine .bind (fails_conjoinItems h hsb hinb h₁b h₂b place)
    (runs_conjoinItems h.sound hb h₁b h₂b hscope) fun i c hc hbc _ => ?_
  cases i with
  | none => exact .pure
  | some i =>
  have hsc := hsb.next hc hbc.toGrows
  have h₁c := h₁b.mono hbc.next
  have h₂c := h₂b.mono hbc.next
  have hinc := hinb.mono hb.toWellFormed hbc.toGrows
  refine .bind (fails_conjoinExtras h hsc hinc h₁c h₂c place)
    (runs_conjoinExtras h.sound hc h₁c h₂c hscope) fun e d hd hcd _ => ?_
  have hsd := hsc.next hd hcd.toGrows
  have h₁d := h₁c.mono hcd.next
  have h₂d := h₂c.mono hcd.next
  have hind := hinc.mono hc.toWellFormed hcd.toGrows
  refine .bind (fails_conjoinProperties h hsd hind h₁d h₂d (fun _ hk => hk) .empty _)
    (runs_conjoinProperties h.sound hd h₁d h₂d hscope (fun _ hk => hk) .empty
      fun q hq => ⟨_, hq⟩) fun ps f hf hdf _ => ?_
  cases ps with
  | none => exact .pure
  | some ps =>
  have haf := ((hab.toGrows.trans hbc.toGrows).trans hcd.toGrows).trans hdf.toGrows
  exact fails_conjoinSides h (hsd.next hf hdf.toGrows) (haf.form hx) (haf.form hy)
    (hinx.mono hwf haf hltx) (hiny.mono hwf haf hlty) (haf.schema x hltx) (haf.schema y hlty) _

theorem fails_conjoin (h : Tracing P o root solve) (hs : Stage P o a) (hx : Admitted o root a x)
    (hy : Admitted o root a y) (place : Pointer) :
    Fails (conjoin solve x y place) a (Traced o root) := by
  unfold conjoin
  refine h.normalize_bind hs hx fun fx b hb hab hfx => ?_
  cases fx with
  | none => exact .pure
  | some nx =>
  have hyb := hy.mono hs.toWellFormed hb.toWellFormed hab
  refine h.normalize_bind hb hyb fun fy c hc hbc hfy => ?_
  cases fy with
  | none => exact .pure
  | some ny =>
  dsimp only
  split
  · exact .pure
  refine .view_bind ?_
  split
  · exact .pure
  have hxc := (hx.toInside.mono hs.toWellFormed hab.toGrows).mono hb.toWellFormed hbc.toGrows
  have hyc := hyb.toInside.mono hb.toWellFormed hbc.toGrows
  have hfx' := hbc.done x _ hfx
  have hnx := admitted_of_done hc.toLawful hxc.within hfx'
  have hny := admitted_of_done hc.toLawful hyc.within hfy
  have hformx := hc.form _ _ hfx'
  have hformy := hc.form _ _ hfy
  exact .bind (fails_conjoinForms h hc hformx hformy hnx.within hny.within place)
    (runs_conjoinForms (Q := fun _ => True) h.sound hc.toLawful hformx hformy fun _ _ => trivial)
    fun _ _ _ _ _ => .modify_bind .pure

/-! ## Normal forms -/

theorem fails_narrowed (h : Tracing P o root solve) (hs : Stage P o a) {s : Schema}
    (hproper : s.Proper P a.next) (hc : Admitted o root a c) :
    Fails (narrowed solve s c) a (Traced o root) := by
  unfold narrowed
  refine h.normalize_bind hs hc fun fc b hb hab hfc => ?_
  cases fc with
  | none => exact .pure
  | some n =>
  dsimp only
  split
  · exact .pure
  next ks hk =>
  refine .bind (fails_store _ _) (runs_store (Q := fun _ => True) hb.toLawful
    (storable_kindsAlone s.pointer (hproper.kinds ks hk))) fun m d hd hbd hm => ?_
  cases m with
  | none => exact .pure
  | some m =>
  have hcb := hc.within.mono hs.toWellFormed hab.toGrows hc.lt
  have hn := (admitted_of_done hb.toLawful hcb hfc).mono hb.toWellFormed hd.toWellFormed
    hbd.toAdvances
  have hm' : Within o root d m := by
    intro z hz
    have hshows := Trait.of_stored (inherited_lineage z) hd.toWellFormed hm hz
    exact False.elim (Trait.holds_of_kindsAlone hshows)
  exact h.fails (.conjoin n m s.pointer) d (hb.next hd hbd.toGrows)
    ⟨hn, admitted_form hd.toWellFormed hm.isForm hm'⟩

theorem fails_withAlternatives (h : Tracing P o root solve) (hs : Stage P o a) {s : Schema}
    {own : SchemaId} (hown : Admitted o root a own)
    (hms : ∀ m ∈ s.members, Admitted o root a m) :
    Fails (withAlternatives solve s own) a (Traced o root) := by
  have hwf := hs.toWellFormed
  have hany : ∀ m ∈ s.anyOf, Admitted o root a m := fun m hm =>
    hms m (by simp [Schema.members, hm])
  have hone : ∀ m ∈ s.oneOf, Admitted o root a m := fun m hm =>
    hms m (by simp [Schema.members, hm])
  unfold withAlternatives
  refine .bind (fails_survivors h hs hown _ 0 hany) (runs_survivors (Q := fun _ => True) h.sound
    hs.toLawful hown.lt _ 0 (fun m hm => (hany m hm).lt) fun _ _ => trivial)
    fun as b hb hab has => ?_
  split
  · exact .pure
  have hsb := hs.next hb hab.toGrows
  have hmono : ∀ {m}, Admitted o root a m → Admitted o root b m := fun hm =>
    hm.mono hwf hb.toWellFormed hab.toAdvances
  refine .bind (fails_survivors h hsb (hmono hown) _ 0 fun m hm => hmono (hone m hm))
    (runs_survivors (Q := fun _ => True) h.sound hb (hmono hown).lt _ 0
      (fun m hm => (hmono (hone m hm)).lt) fun _ _ => trivial) fun os c hc hbc hos => ?_
  split
  · exact .pure
  -- the survivors come from members and from the schema's own demands
  have hownb : ∀ r ∈ [own], Within o root b r := by
    intro r hr
    rw [List.mem_singleton] at hr
    exact hr ▸ (hmono hown).within
  have hwithinc : ∀ {m}, Admitted o root b m → Within o root c m := fun hm =>
    hm.within.mono hb.toWellFormed hbc.toGrows hm.lt
  have has' : ∀ m ∈ as, Admitted o root c m := fun m hm =>
    (has.admitted hb (fun l hl => (hmono (hany l hl)).within) hownb m hm).mono hb.toWellFormed
      hc.toWellFormed hbc.toAdvances
  have hos' : ∀ m ∈ os, Admitted o root c m := by
    refine hos.admitted hc (fun l hl => hwithinc (hmono (hone l hl))) fun r hr => ?_
    rw [List.mem_singleton] at hr
    exact hr ▸ hwithinc (hmono hown)
  have hsc := hsb.next hc hbc.toGrows
  have hpure : ∀ bs : List SchemaId, Runs (provenance (P := P)) (fun _ => True)
      (pure bs : ArenaWork (List SchemaId)) c fun _ _ => True := fun bs => .pure hc trivial
  dsimp only
  split
  · exact .bind .pure (hpure os) fun bs _ _ _ _ => fails_gather s own bs _
  split
  · exact .bind .pure (hpure as) fun bs _ _ _ _ => fails_gather s own bs _
  · exact .bind (fails_cross h hsc _ has' hos') (runs_cross (Q := fun _ => True) h.sound hc
      (fun l hl => (has' l hl).lt) (fun r hr => (hos' r hr).lt) _ fun _ => trivial)
      fun bs _ _ _ _ => fails_gather s own bs _

theorem fails_normalForm (h : Tracing P o root solve) (hs : Stage P o a) (hid : Inside o root a x)
    (hms : ∀ m, a.Member x m → Admitted o root a m) :
    Fails (normalForm solve x) a (Traced o root) := by
  have hwf := hs.toWellFormed
  have hproper := hs.proper x
  unfold normalForm
  refine .view_bind ?_
  split
  · exact .pure
  split
  · next c hc =>
      exact fails_narrowed h hs hproper (hms c (Schema.mem_members_of_soleChild? hc))
  refine .bind (fails_store _ _) (runs_store (Q := fun _ => True) hs.toLawful
    (storable_baseOf hproper)) fun base b hb hab hbase => ?_
  cases base with
  | none => exact .pure
  | some base =>
  have hsb := hs.next hb hab.toGrows
  have hmsb : ∀ m ∈ (a.schema x).members, Admitted o root b m := fun m hm =>
    (hms m hm).mono hwf hb.toWellFormed hab.toAdvances
  have hallOf : ∀ m ∈ (a.schema x).allOf, Admitted o root b m := fun m hm =>
    hmsb m (by simp [Schema.members, hm])
  -- the base refers to what the schema refers to
  have hbase' : Admitted o root b base := by
    refine admitted_form hb.toWellFormed hbase.isForm fun z hz => ?_
    have hshows := Trait.of_stored (inherited_lineage z) hb.toWellFormed hbase hz
    have hlead : b.Leads x z := by
      rw [← hab.schema x hid.lt] at hshows
      exact (Trait.shows_baseOf hshows).has
    exact hid.within.mono hwf hab.toGrows hid.lt z hlead
  refine .bind (fails_conjoinAll h hsb hbase' _ hallOf) (runs_conjoinAll (Q := fun _ => True)
    h.sound hb hbase.isForm _ (fun m hm => (hallOf m hm).lt) fun _ _ => trivial)
    fun own c hc hbc hown => ?_
  cases own with
  | none => exact .pure
  | some own =>
  have hmono : ∀ {m}, Admitted o root b m → Admitted o root c m := fun hm =>
    hm.mono hb.toWellFormed hc.toWellFormed hbc.toAdvances
  have hform := hown.isForm (hbc.form hbase.isForm)
  have hown' : Admitted o root c own := by
    refine admitted_form hc.toWellFormed hform fun z hz => ?_
    rcases Trait.of_allJoined hc hown hz with hlead | ⟨m, hm, hlead⟩
    · exact (hmono hbase').within z hlead
    · exact (hmono (hallOf m hm)).within z hlead
  exact fails_withAlternatives h (hsb.next hc hbc.toGrows) hown' fun m hm => hmono (hmsb m hm)

/-- A schema that may be asked for either has its answer, enters the path, or closes a walk through
    members. -/
theorem fails_normalize (ho : o.WellFormed P) (hroot : root < o.next) (h : Tracing P o root solve)
    (hs : Stage P o a) (hx : Admitted o root a x) :
    Fails (normalize solve x) a (Traced o root) := by
  have hwf := hs.toWellFormed
  unfold normalize
  refine .view_bind ?_
  split
  · exact .pure
  · next hin =>
      refine .view_bind ?_
      rintro trail ⟨⟩
      exact combinatorCycle_cycleTrail ho hroot hwf hs.grows hx.within hx.ready hin
  next hnone =>
  refine .modify_bind (.thenAlways ?_)
  have henters : a.Enters x := by
    rcases hx.ready with ⟨r, hr⟩ | henters
    · rw [hnone] at hr
      cases hr
    · exact henters
  have hgrows := grows_enter hwf hnone
  have hlawful := lawful_enter hs.toLawful hx.lt hnone
  have hin := hx.toInside.mono hwf hgrows
  refine fails_normalForm h (hs.next hlawful hgrows) hin fun m hm => ?_
  exact ⟨hin.link hlawful.toWellFormed hm.link, .inr (henters.member hnone hm)⟩

/-! ## The closed recursion -/

theorem tracing_step (ho : o.WellFormed P) (hroot : root < o.next)
    (h : Tracing P o root solve) : Tracing P o root (step solve) where
  sound := sound_step upheld_provenance h.sound
  fails := by
    intro task a hs htask
    cases task with
    | normalize id => exact fails_normalize ho hroot h hs htask
    | conjoin x y place => exact fails_conjoin h hs htask.1 htask.2 place

theorem tracing_solve (ho : o.WellFormed P) (hroot : root < o.next) (calls : Nat) :
    Tracing P o root (Arena.solve calls) := by
  induction calls with
  | zero =>
      refine ⟨sound_solve upheld_provenance 0, fun _ _ _ _ => ?_⟩
      rintro trail ⟨⟩
  | succ calls ih => exact tracing_step ho hroot ih

end ApiModel.Arena
