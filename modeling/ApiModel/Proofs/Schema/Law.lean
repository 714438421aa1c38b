/-
  ApiModel.Proofs.Schema.Law

  Laws of answers. A law says what is to hold of the normal form of a schema and of the conjunction
  of two normal forms, in terms of the arena that holds them; it keeps holding while the arena grows.
  An arena is lawful when every answer of its memo obeys the law. Here are the changes that the
  algebra makes to an arena, one after the other, and why each leaves it lawful.
-/
import ApiModel.Proofs.Schema.Arena

namespace ApiModel.Arena

/-- What answers are held to. -/
structure Law (P : Json → Prop) where
  /-- `form a id r`: in the arena `a`, the answer `r` is right for the normal form of `id`. -/
  form : Arena → SchemaId → Option SchemaId → Prop
  /-- `both a x y r`: in the arena `a`, the answer `r` is right for the conjunction of the normal
      forms `x` and `y`. -/
  both : Arena → SchemaId → SchemaId → Option SchemaId → Prop
  form_mono : ∀ {a b : Arena} {id : SchemaId} {r : Option SchemaId}, a.WellFormed P →
    b.WellFormed P → Grows a b → id < a.next → (∀ n, r = some n → a.IsForm n) →
    form a id r → form b id r
  both_mono : ∀ {a b : Arena} {x y : SchemaId} {r : Option SchemaId}, a.WellFormed P →
    b.WellFormed P → Grows a b → a.IsForm x → a.IsForm y → (∀ n, r = some n → a.IsForm n) →
    both a x y r → both b x y r
  form_self : ∀ {a : Arena} {n : SchemaId}, a.WellFormed P → a.IsForm n → form a n (some n)
  both_self : ∀ {a : Arena} {n : SchemaId}, a.WellFormed P → a.IsForm n → both a n n (some n)

/-- What is right by the law `L` is right by `L'`. -/
structure Law.Entails {P : Json → Prop} (L L' : Law P) : Prop where
  form : ∀ {a : Arena} {id : SchemaId} {r : Option SchemaId}, L.form a id r → L'.form a id r
  both : ∀ {a : Arena} {x y : SchemaId} {r : Option SchemaId}, L.both a x y r → L'.both a x y r

theorem Law.Entails.refl {P : Json → Prop} (L : Law P) : L.Entails L := ⟨id, id⟩

/-- A well-formed arena whose memo obeys a law. -/
structure Lawful {P : Json → Prop} (L : Law P) (a : Arena) : Prop extends a.WellFormed P where
  forms : ∀ id r, a.progress.get? id = some (.done r) → L.form a id r
  boths : ∀ x y p r, a.conjunctions.get? (x, y, p) = some r → L.both a x y r

variable {P : Json → Prop} {L : Law P} {a b : Arena}

/-- A grown arena is lawful when its new answers are. -/
theorem Lawful.extend (h : a.Lawful L) (hb : b.WellFormed P) (hg : Grows a b)
    (hforms : ∀ id r, b.progress.get? id = some (.done r) →
      a.progress.get? id = some (.done r) ∨ L.form b id r)
    (hboths : ∀ x y p r, b.conjunctions.get? (x, y, p) = some r →
      a.conjunctions.get? (x, y, p) = some r ∨ L.both b x y r) : b.Lawful L := by
  refine { hb with forms := ?_, boths := ?_ }
  · intro id r hr
    rcases hforms id r hr with hold | hnew
    · exact L.form_mono h.toWellFormed hb hg (h.known id _ hold)
        (fun n hn => h.form id n (hn ▸ hold)) (h.forms id r hold)
    · exact hnew
  · intro x y p r hr
    rcases hboths x y p r hr with hold | hnew
    · obtain ⟨hx, hy, hn⟩ := h.memo x y p r hold
      exact L.both_mono h.toWellFormed hb hg hx hy hn (h.boths x y p r hold)
    · exact hnew

/-! ## A new normal form -/

/-- One more schema, which is its own normal form. -/
def addForm (a : Arena) (s : Schema) : Arena :=
  { a.push s with progress := a.progress.insert a.next (.done (some a.next)) }

theorem next_addForm (a : Arena) (s : Schema) : (a.addForm s).next = a.next + 1 := next_push a s

theorem schema_addForm (a : Arena) (s : Schema) (id : SchemaId) :
    (a.addForm s).schema id = if id = a.next then s else a.schema id := schema_push a s id

theorem progress_addForm (a : Arena) (s : Schema) (id : SchemaId) :
    (a.addForm s).progress.get? id =
      if id = a.next then some (.done (some a.next)) else a.progress.get? id :=
  Dict.get?_insert _ _ _ _

theorem isForm_addForm (a : Arena) (s : Schema) : (a.addForm s).IsForm a.next := by
  simp [IsForm, progress_addForm]

theorem isForm_addForm_of_ne {s : Schema} {n : SchemaId} (hn : n ≠ a.next) :
    (a.addForm s).IsForm n ↔ a.IsForm n := by
  simp [IsForm, progress_addForm, hn]

/-- Stored or not yet stored: links of a schema below `next` keep existing, and so do those of a
    schema put at `next`. -/
theorem proper_push {s : Schema} (h : a.WellFormed P) (hs : s.Proper P a.next) (id : SchemaId) :
    ((a.push s).schema id).Proper P (a.push s).next := by
  rw [schema_push, next_push]
  split
  · exact hs.mono (Nat.le_succ _)
  · exact (h.proper id).mono (Nat.le_succ _)

theorem wellFormed_addForm {s : Schema} (h : a.WellFormed P) (hs : s.Proper P a.next)
    (hn : s.IsNormal) (hb : ∀ c ∈ s.anyOf, a.IsForm c) : (a.addForm s).WellFormed P := by
  have hlt : ∀ {n}, a.IsForm n → n ≠ a.next := fun hn => Nat.ne_of_lt (h.isForm_lt hn)
  have hkeep : ∀ {n}, a.IsForm n → (a.addForm s).IsForm n :=
    fun hn => (isForm_addForm_of_ne (hlt hn)).2 hn
  refine ⟨proper_push h hs, ?known, ?pending, ?form, ?normal, ?plain, ?memo, h.deferred, ?operands,
    h.flat, ?raw, ?older⟩
  case known =>
    intro id p hp
    rw [progress_addForm] at hp
    rw [next_addForm]
    split at hp
    · next heq => exact heq ▸ Nat.lt_succ_self _
    · exact Nat.lt_succ_of_lt (h.known id p hp)
  -- the new schema was not known, so it is not on the path
  case pending =>
    intro id
    rw [progress_addForm]
    split
    · next heq =>
        subst heq
        refine ⟨fun e => by simp at e, fun hmem => ?_⟩
        exact absurd (h.known _ _ ((h.pending _).2 hmem)) (Nat.lt_irrefl _)
    · exact h.pending id
  case form =>
    intro id n hp
    rw [progress_addForm] at hp
    split at hp
    · next heq =>
        simp only [Option.some.injEq, Progress.done.injEq] at hp
        exact hp ▸ isForm_addForm a s
    · exact hkeep (h.form id n hp)
  case normal =>
    intro n hform
    rw [schema_addForm]
    split
    · exact ⟨hn, fun c hc => hkeep (hb c hc)⟩
    · next hne =>
        obtain ⟨hnormal, hbranch⟩ := h.normal n ((isForm_addForm_of_ne hne).1 hform)
        exact ⟨hnormal, fun c hc => hkeep (hbranch c hc)⟩
  -- the new schema is its own answer; the old ones answer with old schemas
  case plain =>
    intro id n hp hm
    rw [progress_addForm] at hp
    split at hp
    · next heq =>
        simp only [Option.some.injEq, Progress.done.injEq] at hp
        rw [heq] at hm ⊢
        exact hp ▸ ⟨hm, rfl⟩
    · next hne =>
        simp only [schema_addForm, if_neg hne, if_neg (hlt (h.form id n hp))] at hm ⊢
        exact h.plain id n hp hm
  case memo =>
    intro x y p r hr
    obtain ⟨hx, hy, hres⟩ := h.memo x y p r hr
    exact ⟨hkeep hx, hkeep hy, fun n hn => hkeep (hres n hn)⟩
  case operands =>
    intro id os ho
    obtain ⟨hid, p, hp⟩ := h.operands id os ho
    rw [next_addForm, schema_addForm, if_neg (Nat.ne_of_lt hid)]
    exact ⟨Nat.lt_succ_of_lt hid, p, hp⟩
  -- a raw schema is an old one, and so is what it refers to
  case raw =>
    rintro x y ⟨hx, hops⟩ hxy
    have hne : x ≠ a.next := by
      rintro rfl
      exact hx (isForm_addForm a s)
    rw [Link, schema_addForm, if_neg hne] at hxy
    rw [isForm_addForm_of_ne hne] at hx
    obtain ⟨hy, hyops⟩ := h.raw x y ⟨hx, hops⟩ hxy
    exact ⟨fun hform => hy ((isForm_addForm_of_ne (Nat.ne_of_lt (h.link_lt hxy))).1 hform), hyops⟩
  case older =>
    intro x y hx hxy
    rw [Link, schema_addForm] at hxy
    split at hxy
    · next heq => exact heq ▸ hs.links y hxy
    · next hne => exact h.older x y (by rwa [Raw, isForm_addForm_of_ne hne] at hx) hxy

theorem advances_addForm (h : a.WellFormed P) (s : Schema) : Advances a (a.addForm s) := by
  refine { Grows.of_schemas h ?_ ?_ ?_ ?_ ?_ ?_ with pending := rfl, raw := fun id hid hraw => ?_ }
  · exact next_addForm a s ▸ Nat.le_succ _
  · intro id hid
    rw [schema_addForm, if_neg (Nat.ne_of_lt hid)]
  · intro id r hr
    rw [progress_addForm, if_neg (Nat.ne_of_lt (h.known id _ hr))]
    exact hr
  · intro id hid
    exact (isForm_addForm_of_ne (Nat.ne_of_lt hid)).1
  · exact fun _ _ => rfl
  · exact fun _ _ _ _ _ _ hr => hr
  · rw [next_addForm] at hid
    refine Nat.lt_of_le_of_ne (Nat.le_of_lt_succ hid) ?_
    rintro rfl
    exact hraw.1 (isForm_addForm a s)

/-- A new normal form breaks no law. -/
theorem lawful_addForm {s : Schema} (h : a.Lawful L) (hs : s.Proper P a.next) (hn : s.IsNormal)
    (hb : ∀ c ∈ s.anyOf, a.IsForm c) : (a.addForm s).Lawful L := by
  have hwf := wellFormed_addForm h.toWellFormed hs hn hb
  refine h.extend hwf (advances_addForm h.toWellFormed s).toGrows ?_ fun _ _ _ _ hr => .inl hr
  intro id r hr
  rw [progress_addForm] at hr
  split at hr
  · next heq =>
      simp only [Option.some.injEq, Progress.done.injEq] at hr
      exact .inr (heq ▸ hr ▸ L.form_self hwf (isForm_addForm a s))
  · exact .inl hr

/-! ## A new conjunction put off -/

/-- One more schema, which stands for the conjunction of some operands. -/
def addDeferred (a : Arena) (os : SortedSet SchemaId) (place : Pointer) : Arena :=
  { a.push (.conjunction place os.elements) with
    deferred := a.deferred.insert os a.next
    operands := a.operands.insert a.next os }

theorem next_addDeferred (a : Arena) (os : SortedSet SchemaId) (place : Pointer) :
    (a.addDeferred os place).next = a.next + 1 := next_push a _

theorem schema_addDeferred (a : Arena) (os : SortedSet SchemaId) (place : Pointer)
    (id : SchemaId) : (a.addDeferred os place).schema id =
      if id = a.next then .conjunction place os.elements else a.schema id :=
  schema_push a _ id

theorem operands_addDeferred (a : Arena) (os : SortedSet SchemaId) (place : Pointer)
    (id : SchemaId) : (a.addDeferred os place).operands.get? id =
      if id = a.next then some os else a.operands.get? id :=
  Dict.get?_insert _ _ _ _

theorem wellFormed_addDeferred {os : SortedSet SchemaId} {place : Pointer} (h : a.WellFormed P)
    (hos : ∀ c ∈ os.elements, c < a.next ∧ a.operands.get? c = none) :
    (a.addDeferred os place).WellFormed P := by
  have hproper : (Schema.conjunction place os.elements).Proper P a.next :=
    { Schema.proper_blank P a.next place with
      links := by
        rw [Schema.links_conjunction]
        exact fun c hc => (hos c hc).1 }
  -- what has an answer is not the new schema
  have hne : ∀ {id p}, a.progress.get? id = some p → id ≠ a.next :=
    fun hp => Nat.ne_of_lt (h.known _ _ hp)
  refine ⟨proper_push h hproper, ?known, h.pending, h.form, ?normal, ?plain, h.memo, ?deferred,
    ?operands, ?flat, ?raw, ?older⟩
  case known =>
    intro id p hp
    rw [next_addDeferred]
    exact Nat.lt_succ_of_lt (h.known id p hp)
  case normal =>
    intro n hform
    rw [schema_addDeferred, if_neg (hne hform)]
    exact h.normal n hform
  case plain =>
    intro id n hp hm
    simp only [schema_addDeferred, if_neg (hne hp), if_neg (hne (h.form id n hp))] at hm ⊢
    exact h.plain id n hp hm
  -- a schema that was put off before keeps its operands
  case deferred =>
    intro os' id hd
    rw [operands_addDeferred]
    rw [addDeferred, Dict.get?_insert] at hd
    split at hd
    · next heq =>
        simp only [Option.some.injEq] at hd
        rw [if_pos hd.symm, heq]
    · have ho := h.deferred os' id hd
      rw [if_neg (Nat.ne_of_lt (h.operands id os' ho).1)]
      exact ho
  case operands =>
    intro id os' ho
    rw [operands_addDeferred] at ho
    rw [next_addDeferred, schema_addDeferred]
    split at ho
    · next heq =>
        simp only [Option.some.injEq] at ho
        exact ⟨heq ▸ Nat.lt_succ_self _, place, by rw [if_pos heq, ho]⟩
    · next hid =>
        obtain ⟨hlt, hs⟩ := h.operands id os' ho
        exact ⟨Nat.lt_succ_of_lt hlt, by rw [if_neg hid]; exact hs⟩
  -- all operands are older than the new schema
  case flat =>
    intro id os' ho c hc
    rw [operands_addDeferred] at ho ⊢
    split at ho
    · simp only [Option.some.injEq] at ho
      obtain ⟨hlt, hnone⟩ := hos c (ho ▸ hc)
      rwa [if_neg (Nat.ne_of_lt hlt)]
    · obtain ⟨-, p, hp⟩ := h.operands id os' ho
      have hlt : c < a.next := (h.proper id).links c (by rwa [hp, Schema.links_conjunction])
      rw [if_neg (Nat.ne_of_lt hlt)]
      exact h.flat id os' ho c hc
  case raw =>
    rintro x y ⟨hx, hops⟩ hxy
    have hne : x ≠ a.next := by
      rintro rfl
      simp [operands_addDeferred] at hops
    rw [Link, schema_addDeferred, if_neg hne] at hxy
    rw [operands_addDeferred, if_neg hne] at hops
    obtain ⟨hy, hyops⟩ := h.raw x y ⟨hx, hops⟩ hxy
    refine ⟨hy, ?_⟩
    rw [operands_addDeferred, if_neg (Nat.ne_of_lt (h.link_lt hxy))]
    exact hyops
  case older =>
    intro x y hx hxy
    rw [Link, schema_addDeferred] at hxy
    split at hxy
    · next heq => exact heq ▸ hproper.links y hxy
    · next hne =>
        rw [Raw, operands_addDeferred, if_neg hne] at hx
        exact h.older x y hx hxy

theorem advances_addDeferred (h : a.WellFormed P) (os : SortedSet SchemaId) (place : Pointer) :
    Advances a (a.addDeferred os place) := by
  refine { Grows.of_schemas h ?_ ?_ ?_ ?_ ?_ ?_ with pending := rfl, raw := fun id hid hraw => ?_ }
  · exact next_addDeferred a os place ▸ Nat.le_succ _
  · intro id hid
    rw [schema_addDeferred, if_neg (Nat.ne_of_lt hid)]
  · exact fun _ _ hr => hr
  · exact fun _ _ hid => hid
  · intro id hid
    rw [operands_addDeferred, if_neg (Nat.ne_of_lt hid)]
  · exact fun _ _ _ _ _ _ hr => hr
  · rw [next_addDeferred] at hid
    refine Nat.lt_of_le_of_ne (Nat.le_of_lt_succ hid) ?_
    rintro rfl
    simp [Raw, operands_addDeferred] at hraw

theorem lawful_addDeferred {os : SortedSet SchemaId} {place : Pointer} (h : a.Lawful L)
    (hos : ∀ c ∈ os.elements, c < a.next ∧ a.operands.get? c = none) :
    (a.addDeferred os place).Lawful L :=
  h.extend (wellFormed_addDeferred h.toWellFormed hos)
    (advances_addDeferred h.toWellFormed os place).toGrows (fun _ _ hr => .inl hr)
    fun _ _ _ _ hr => .inl hr

/-! ## Progress alone -/

/-- Another state of progress, over the same schemas and with the same normal forms, is well formed
    when its entries are good ones. -/
theorem WellFormed.withProgress (h : a.WellFormed P)
    (hb : b = { a with progress := b.progress, pending := b.pending })
    (hform : ∀ n, b.IsForm n ↔ a.IsForm n)
    (hknown : ∀ x p, b.progress.get? x = some p → x < a.next)
    (hpending : ∀ x, b.progress.get? x = some .inProgress ↔ x ∈ b.pending)
    (hdone : ∀ x n, b.progress.get? x = some (.done (some n)) → a.IsForm n ∧
      ((a.schema x).members = [] →
        (a.schema n).members = [] ∧ (a.schema n).links = (a.schema x).links)) :
    b.WellFormed P := by
  -- everything apart from progress and the path stays
  have hschemas : b.schemas = a.schemas := by rw [hb]
  have hconj : b.conjunctions = a.conjunctions := by rw [hb]
  have hdef : b.deferred = a.deferred := by rw [hb]
  have hops : b.operands = a.operands := by rw [hb]
  have hschema : ∀ x, b.schema x = a.schema x := fun x => by simp only [schema, hschemas]
  have hnext : b.next = a.next := by simp only [next, hschemas]
  refine ⟨?proper, ?known, hpending, ?form, ?normal, ?plain, ?memo, ?deferred, ?operands, ?flat,
    ?raw, ?older⟩
  case proper => exact fun x => hschema x ▸ hnext ▸ h.proper x
  case known => exact fun x p hp => hnext ▸ hknown x p hp
  case form => exact fun x n hp => (hform n).2 (hdone x n hp).1
  case normal =>
    intro n hn
    obtain ⟨hnormal, hbranch⟩ := h.normal n ((hform n).1 hn)
    rw [hschema]
    exact ⟨hnormal, fun c hc => (hform c).2 (hbranch c hc)⟩
  case plain =>
    intro x n hp
    rw [hschema, hschema]
    exact (hdone x n hp).2
  case memo =>
    intro x y p r hr
    rw [hconj] at hr
    obtain ⟨hx, hy, hres⟩ := h.memo x y p r hr
    exact ⟨(hform x).2 hx, (hform y).2 hy, fun n hn => (hform n).2 (hres n hn)⟩
  case deferred => exact fun os x hd => hops ▸ h.deferred os x (hdef ▸ hd)
  case operands =>
    intro x os ho
    rw [hops] at ho
    rw [hnext, hschema]
    exact h.operands x os ho
  case flat => rw [hops]; exact h.flat
  case raw =>
    rintro x y ⟨hx, hxops⟩ hxy
    rw [Link, hschema] at hxy
    rw [hops] at hxops
    obtain ⟨hy, hyops⟩ := h.raw x y ⟨fun hn => hx ((hform x).2 hn), hxops⟩ hxy
    exact ⟨fun hn => hy ((hform y).1 hn), hops ▸ hyops⟩
  case older =>
    intro x y hx hxy
    rw [Raw, hform, hops] at hx
    rw [Link, hschema] at hxy
    exact h.older x y hx hxy

/-! ## The start of a normalization -/

/-- A schema enters the path of those under normalization. -/
def enter (a : Arena) (id : SchemaId) : Arena :=
  { a with progress := a.progress.insert id .inProgress, pending := a.pending ++ [id] }

theorem progress_enter (a : Arena) (id x : SchemaId) :
    (a.enter id).progress.get? x = if x = id then some .inProgress else a.progress.get? x :=
  Dict.get?_insert _ _ _ _

theorem done_enter {id x : SchemaId} {r : Option SchemaId} (hid : a.progress.get? id = none) :
    (a.enter id).progress.get? x = some (.done r) ↔ a.progress.get? x = some (.done r) := by
  rw [progress_enter]
  split
  · next heq => simp [heq, hid]
  · exact Iff.rfl

theorem wellFormed_enter {id : SchemaId} (h : a.WellFormed P) (hlt : id < a.next)
    (hid : a.progress.get? id = none) : (a.enter id).WellFormed P := by
  refine h.withProgress rfl (fun n => done_enter hid) ?known ?pending ?done
  case known =>
    intro x p hp
    rw [progress_enter] at hp
    split at hp
    · next heq => exact heq ▸ hlt
    · exact h.known x p hp
  case pending =>
    intro x
    rw [progress_enter]
    simp only [enter, List.mem_append, List.mem_singleton]
    split
    · next heq => simp [heq]
    · next hne => rw [h.pending x]; simp [hne]
  case done =>
    intro x n hp
    have hp' := (done_enter hid).1 hp
    exact ⟨h.form x n hp', h.plain x n hp'⟩

theorem grows_enter {id : SchemaId} (h : a.WellFormed P) (hid : a.progress.get? id = none) :
    Grows a (a.enter id) :=
  Grows.of_schemas h (Nat.le_refl _) (fun _ _ => rfl) (fun _ _ => (done_enter hid).2)
    (fun _ _ => (done_enter hid).1) (fun _ _ => rfl) fun _ _ _ _ _ _ hr => hr

theorem lawful_enter {id : SchemaId} (h : a.Lawful L) (hlt : id < a.next)
    (hid : a.progress.get? id = none) : (a.enter id).Lawful L :=
  h.extend (wellFormed_enter h.toWellFormed hlt hid) (grows_enter h.toWellFormed hid)
    (fun _ _ hr => .inl ((done_enter hid).1 hr)) fun _ _ _ _ hr => .inl hr

/-! ## The end of a normalization -/

/-- A schema at the end of the path is under normalization. -/
theorem WellFormed.inProgress {path : List SchemaId} {id : SchemaId} (h : a.WellFormed P)
    (hpath : a.pending = path ++ [id]) : a.progress.get? id = some .inProgress :=
  (h.pending id).2 (by simp [hpath])

theorem pending_settle {path : List SchemaId} {id : SchemaId} (hpath : a.pending = path ++ [id])
    (outcome : Except Failure (Option SchemaId)) : (settle id outcome a).pending = path := by
  unfold settle
  cases outcome <;> simp [hpath]

theorem progress_settle_error (id x : SchemaId) (e : Failure) :
    (settle id (.error e) a).progress.get? x = if x = id then none else a.progress.get? x :=
  Dict.get?_erase _ _ _

theorem progress_settle_ok {id : SchemaId} {r : Option SchemaId}
    (hid : a.progress.get? id = some .inProgress) (hr : ∀ n, r = some n → a.IsForm n)
    (x : SchemaId) : (settle id (.ok r) a).progress.get? x =
      if x = id then some (.done r) else a.progress.get? x := by
  unfold settle
  cases r with
  | none => exact Dict.get?_insert _ _ _ _
  | some n =>
      have hn := hr n rfl
      have hne : n ≠ id := by
        rintro rfl
        simp [IsForm, hid] at hn
      simp only [Dict.get?_insert]
      by_cases hx : x = n
      · subst hx
        rw [if_pos rfl, if_neg hne]
        exact hn.symm
      · rw [if_neg hx]

theorem settle_eq (id : SchemaId) (outcome : Except Failure (Option SchemaId)) (a : Arena) :
    settle id outcome a = { a with
      progress := (settle id outcome a).progress
      pending := (settle id outcome a).pending } := by
  unfold settle
  cases outcome <;> rfl

theorem next_settle (id : SchemaId) (outcome : Except Failure (Option SchemaId)) (a : Arena) :
    (settle id outcome a).next = a.next := by
  rw [settle_eq]
  rfl

/-- Settling changes the memo for one schema alone; what is left to show is that the new entry is a
    good one. -/
theorem wellFormed_settle {path : List SchemaId} {id : SchemaId}
    {outcome : Except Failure (Option SchemaId)} (h : a.WellFormed P)
    (hpath : a.pending = path ++ [id]) (hnew : id ∉ path)
    (hother : ∀ x, x ≠ id → (settle id outcome a).progress.get? x = a.progress.get? x)
    (hself : (settle id outcome a).progress.get? id = none ∨ ∃ r,
      (settle id outcome a).progress.get? id = some (.done r) ∧ ∀ n, r = some n → a.IsForm n ∧
        ((a.schema id).members = [] →
          (a.schema n).members = [] ∧ (a.schema n).links = (a.schema id).links)) :
    (settle id outcome a).WellFormed P := by
  have hid := h.inProgress hpath
  have hdone : ∀ n, (settle id outcome a).progress.get? id = some (.done (some n)) →
      a.IsForm n ∧ ((a.schema id).members = [] →
        (a.schema n).members = [] ∧ (a.schema n).links = (a.schema id).links) := by
    intro n hn
    rcases hself with hnone | ⟨r, hr, hform⟩
    · rw [hnone] at hn
      cases hn
    · rw [hr] at hn
      cases hn
      exact hform n rfl
  -- the number of the schema itself is no normal form, before or after
  have hform : ∀ n, (settle id outcome a).IsForm n ↔ a.IsForm n := by
    intro n
    by_cases hx : n = id
    · subst hx
      exact ⟨fun hn => (hdone n hn).1, fun hn => by simp [IsForm, hid] at hn⟩
    · rw [IsForm, IsForm, hother n hx]
  refine h.withProgress (settle_eq id outcome a) hform ?known ?pending ?done
  case known =>
    intro x p hp
    by_cases hx : x = id
    · exact hx ▸ h.known id _ hid
    · exact h.known x p (hother x hx ▸ hp)
  case pending =>
    intro x
    rw [pending_settle hpath]
    by_cases hx : x = id
    · subst hx
      rcases hself with hnone | ⟨r, hr, -⟩ <;> simp [*]
    · rw [hother x hx, h.pending x, hpath]
      simp [hx]
  case done =>
    intro x n hp
    by_cases hx : x = id
    · subst hx
      exact hdone n hp
    · rw [hother x hx] at hp
      exact ⟨h.form x n hp, h.plain x n hp⟩

theorem grows_settle {path : List SchemaId} {id : SchemaId}
    {outcome : Except Failure (Option SchemaId)} (h : a.WellFormed P)
    (hpath : a.pending = path ++ [id])
    (hother : ∀ x, x ≠ id → (settle id outcome a).progress.get? x = a.progress.get? x)
    (hself : ¬(settle id outcome a).IsForm id) : Grows a (settle id outcome a) := by
  have hid := h.inProgress hpath
  have hsettle := settle_eq id outcome a
  refine Grows.of_schemas h ?next ?schema ?done ?isForm ?operands ?kept
  case next => rw [hsettle]; exact Nat.le_refl _
  case schema => intro x _; rw [hsettle]; rfl
  case done =>
    intro x r hr
    have hx : x ≠ id := by
      rintro rfl
      simp [hid] at hr
    rwa [hother x hx]
  case isForm =>
    intro x _ hx
    have hne : x ≠ id := by
      rintro rfl
      exact hself hx
    rwa [IsForm, hother x hne] at hx
  case operands => intro x _; rw [hsettle]
  case kept => intro x y p r _ _ hr; rw [hsettle]; exact hr

/-- After a failure there is no trace of the schema. -/
theorem lawful_settle_error {path : List SchemaId} {id : SchemaId} (h : a.Lawful L)
    (hpath : a.pending = path ++ [id]) (hnew : id ∉ path) (e : Failure) :
    (settle id (.error e) a).Lawful L ∧ Grows a (settle id (.error e) a) := by
  have hother : ∀ x, x ≠ id →
      (settle id (.error e) a).progress.get? x = a.progress.get? x := by
    intro x hx
    rw [progress_settle_error, if_neg hx]
  have hself : (settle id (.error e) a).progress.get? id = none := by
    rw [progress_settle_error, if_pos rfl]
  have hwf := wellFormed_settle h.toWellFormed hpath hnew hother (.inl hself)
  have hgrows := grows_settle h.toWellFormed hpath hother (by simp [IsForm, hself])
  refine ⟨h.extend hwf hgrows ?_ fun x y p r hr => .inl hr, hgrows⟩
  intro x r hr
  by_cases hx : x = id
  · rw [hx, hself] at hr
    cases hr
  · exact .inl (hother x hx ▸ hr)

/-- After a success the answer stands in the memo. -/
theorem lawful_settle_ok {path : List SchemaId} {id : SchemaId} {r : Option SchemaId}
    (h : a.Lawful L) (hpath : a.pending = path ++ [id]) (hnew : id ∉ path)
    (hr : ∀ n, r = some n → a.IsForm n)
    (hplain : ∀ n, r = some n → (a.schema id).members = [] →
      (a.schema n).members = [] ∧ (a.schema n).links = (a.schema id).links)
    (hlaw : L.form a id r) :
    (settle id (.ok r) a).Lawful L ∧ Grows a (settle id (.ok r) a) ∧
      (settle id (.ok r) a).progress.get? id = some (.done r) := by
  have hid := h.inProgress hpath
  have hother : ∀ x, x ≠ id →
      (settle id (.ok r) a).progress.get? x = a.progress.get? x := by
    intro x hx
    rw [progress_settle_ok hid hr, if_neg hx]
  have hself : (settle id (.ok r) a).progress.get? id = some (.done r) := by
    rw [progress_settle_ok hid hr, if_pos rfl]
  -- an answer is a normal form, which a schema under normalization is not
  have hnoForm : ¬(settle id (.ok r) a).IsForm id := by
    intro hform
    rw [IsForm, hself] at hform
    simp only [Option.some.injEq, Progress.done.injEq] at hform
    have := hr id hform
    simp [IsForm, hid] at this
  have hwf := wellFormed_settle h.toWellFormed hpath hnew hother
    (.inr ⟨r, hself, fun n hn => ⟨hr n hn, hplain n hn⟩⟩)
  have hgrows := grows_settle h.toWellFormed hpath hother hnoForm
  refine ⟨h.extend hwf hgrows ?_ fun x y p r hr => .inl (by cases r <;> exact hr), hgrows, hself⟩
  intro x r' hr'
  by_cases hx : x = id
  · subst hx
    rw [hself] at hr'
    simp only [Option.some.injEq, Progress.done.injEq] at hr'
    exact .inr (hr' ▸ L.form_mono h.toWellFormed hwf hgrows (h.known _ _ hid) hr hlaw)
  · exact .inl (hother x hx ▸ hr')

/-! ## A conjunction remembered -/

/-- The answer for the conjunction of two normal forms at a place. -/
def remember (a : Arena) (x y : SchemaId) (place : Pointer) (r : Option SchemaId) : Arena :=
  { a with conjunctions := a.conjunctions.insert (x, y, place) r }

theorem conjunctions_remember (a : Arena) (x y : SchemaId) (place : Pointer)
    (r : Option SchemaId) (k : SchemaId × SchemaId × Pointer) :
    (a.remember x y place r).conjunctions.get? k =
      if k = (x, y, place) then some r else a.conjunctions.get? k :=
  Dict.get?_insert _ _ _ _

/-- An answer is remembered where none was, at least for bare schemas. -/
theorem lawful_remember {x y : SchemaId} {place : Pointer} {r : Option SchemaId} (h : a.Lawful L)
    (hx : a.IsForm x) (hy : a.IsForm y) (hr : ∀ n, r = some n → a.IsForm n)
    (hnew : a.Bare x → a.Bare y → a.conjunctions.get? (x, y, place) = none)
    (hlaw : L.both a x y r) :
    (a.remember x y place r).Lawful L ∧ Advances a (a.remember x y place r) := by
  have hwf : (a.remember x y place r).WellFormed P := by
    refine { h.toWellFormed with memo := ?_ }
    intro x' y' p' r' hr'
    rw [conjunctions_remember] at hr'
    split at hr'
    · next heq =>
        simp only [Prod.mk.injEq] at heq
        simp only [Option.some.injEq] at hr'
        obtain ⟨rfl, rfl, rfl⟩ := heq
        exact ⟨hx, hy, hr' ▸ hr⟩
    · exact h.memo x' y' p' r' hr'
  -- no answer about bare schemas is overwritten
  have hgrows : Grows a (a.remember x y place r) := by
    refine Grows.of_schemas h.toWellFormed (Nat.le_refl _) (fun _ _ => rfl) (fun _ _ hd => hd)
      (fun _ _ hf => hf) (fun _ _ => rfl) ?_
    intro x' y' p' r' hbx hby hr'
    rw [conjunctions_remember, if_neg, hr']
    intro heq
    simp only [Prod.mk.injEq] at heq
    obtain ⟨rfl, rfl, rfl⟩ := heq
    simp [hnew hbx hby] at hr'
  refine ⟨h.extend hwf hgrows (fun _ _ hd => .inl hd) ?_,
    { hgrows with pending := rfl, raw := fun _ hid _ => hid }⟩
  intro x' y' p' r' hr'
  rw [conjunctions_remember] at hr'
  split at hr'
  · next heq =>
      simp only [Prod.mk.injEq] at heq
      simp only [Option.some.injEq] at hr'
      obtain ⟨rfl, rfl, rfl⟩ := heq
      exact .inr (hr' ▸ L.both_mono h.toWellFormed hwf hgrows hx hy hr hlaw)
  · exact .inl hr'

end ApiModel.Arena
