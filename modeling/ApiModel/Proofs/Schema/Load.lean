/-
  ApiModel.Proofs.Schema.Load

  What loading does to a session. Every load adds schemas to the arena and pointers to the table of
  loaded ones, and touches nothing else; schemas that were there before stay as they are. The number
  that is reserved before the children are read is the one exception in between, so the frame
  condition speaks of the schemas below a number: a load keeps those below the number it started at.
-/
import ApiModel.Proofs.Json
import ApiModel.Proofs.Work
import ApiModel.Proofs.Schema.Law
import ApiModel.Schema.Load

namespace ApiModel

/-! ## What is known of the values of a document -/

/-- A property of values that their parts inherit. -/
structure Hereditary (P : Json → Prop) : Prop where
  item : ∀ {xs v}, P (.arr xs) → v ∈ xs → P v
  field : ∀ {fs k v}, P (.obj fs) → fs.lookup k = some v → P v

theorem hereditary_true : Hereditary fun _ => True where
  item _ _ := trivial
  field _ _ := trivial

theorem hereditary_distinct : Hereditary Json.Distinct where
  item h hv := h.item _ hv
  field h hv := h.field hv

namespace Document

variable {P : Json → Prop} {document v w : Json}

theorem step?_of_hereditary (hP : Hereditary P) (hv : P v) {segment : String}
    (h : step? v segment = some w) : P w := by
  cases v with
  | obj fields => exact hP.field hv h
  | arr items =>
      simp only [step?, Option.bind_eq_bind, Option.bind_eq_some_iff] at h
      obtain ⟨i, -, hi⟩ := h
      exact hP.item hv (List.mem_of_getElem? hi)
  | _ => simp [step?] at h

theorem walk?_of_hereditary (hP : Hereditary P) (hv : P v) {ss : List String}
    (h : walk? v ss = some w) : P w := by
  induction ss generalizing v with
  | nil =>
      simp only [walk?, Option.some.injEq] at h
      exact h ▸ hv
  | cons s ss ih =>
      simp only [walk?, Option.bind_eq_bind, Option.bind_eq_some_iff] at h
      obtain ⟨u, hu, hw⟩ := h
      exact ih (step?_of_hereditary hP hv hu) hw

/-- Following references ends at a value of the document. -/
theorem resolveFrom_of_hereditary (hP : Hereditary P) (hd : P document) (trail : List Pointer)
    (p target : Pointer) (h : resolveFrom document trail p = .ok (target, v)) : P v := by
  fun_induction resolveFrom document trail p with
  | case1 => cases h
  | case2 trail current w hw =>
      cases h
      unfold node at hw
      split at hw
      · next u hu =>
          cases hw
          exact walk?_of_hereditary hP hd hu
      · cases hw
  | case3 => cases h
  | case4 => cases h
  | case5 trail current w hw text ht next hq hn ih => exact ih h

theorem resolve_of_hereditary (hP : Hereditary P) (hd : P document) {p : Pointer}
    {r : Pointer × Json} (h : resolve document p = .ok r) : P r.2 :=
  resolveFrom_of_hereditary hP hd _ _ r.1 h

end Document

namespace Session

open Work

/-! ## The frame of a load -/

/-- From `s` to `t` schemas and loaded pointers have been added, and warnings recorded; the schemas
    below `n` are as before. -/
structure Loads (n : Nat) (s t : Session) : Prop where
  rest : ∃ schemas loaded warnings, t = { s with
    arena := { s.arena with schemas := schemas }, loaded := loaded, warnings := warnings }
  next : s.arena.next ≤ t.arena.next
  schema : ∀ id, id < n → t.arena.schema id = s.arena.schema id
  loaded : ∀ p id, s.loaded.get? p = some id → t.loaded.get? p = some id

instance (n : Nat) : IsPreorder Session (Loads n) where
  refl s := ⟨⟨_, _, _, rfl⟩, Nat.le_refl _, fun _ _ => rfl, fun _ _ h => h⟩
  trans := by
    rintro r s t ⟨⟨_, _, _, rfl⟩, hn, hs, hl⟩ ⟨⟨x, y, z, rfl⟩, hn', hs', hl'⟩
    exact ⟨⟨x, y, z, rfl⟩, Nat.le_trans hn hn', fun id hid => (hs' id hid).trans (hs id hid),
      fun p id h => hl' p id (hl p id h)⟩

/-- The number of a schema that may be referred to from the document; `K` says which those are. -/
def Known (K : SchemaId → Prop) (s : Session) (id : SchemaId) : Prop := id < s.arena.next ∧ K id

/-- All schemas are proper, and loaded pointers, and the schemas from `n` on, lead to schemas of the
    document. -/
structure Readable (P : Json → Prop) (K : SchemaId → Prop) (n : Nat) (s : Session) : Prop where
  proper : ∀ id, (s.arena.schema id).Proper P s.arena.next
  loaded : ∀ p id, s.loaded.get? p = some id → Known K s id
  links : ∀ id, n ≤ id → ∀ c ∈ (s.arena.schema id).links, K c

/-- `x`, started in `s`, only loads, and keeps the schemas below `n`. -/
abbrev Reads {α : Type} (P : Json → Prop) (K : SchemaId → Prop) (n : Nat) (x : SessionWork α)
    (s : Session) (post : α → Session → Prop) : Prop :=
  Yields (Readable P K n) (Loads n) x s post

/-- A way of loading that keeps the schemas that there are. -/
def Reader (P : Json → Prop) (K : SchemaId → Prop) (n : Nat) (load : Loader) : Prop :=
  ∀ p s, Readable P K n s → n ≤ s.arena.next →
    Reads P K n (load p) s fun id t => Known K t id ∧ t.loaded.get? p = some id

/-- A schema as it is read: proper, and leading to schemas of the document. -/
structure Read (P : Json → Prop) (K : SchemaId → Prop) (t : Session) (m : Schema) : Prop where
  proper : m.Proper P t.arena.next
  links : ∀ c ∈ m.links, K c

variable {P : Json → Prop} {K : SchemaId → Prop} {n : Nat} {s : Session} {load : Loader}
  {place : Pointer} {fields : List (String × Json)}

theorem read_blank (p : Pointer) : Read P K s (.blank p) :=
  ⟨Schema.proper_blank P _ p, by simp [Schema.links_blank]⟩

/-! ## Keywords -/

/-- What every step of a fold keeps, the fold keeps. -/
theorem foldlM_keeps {α β ε : Type} {f : β → α → Except ε β} {I : β → Prop} {xs : List α}
    (hf : ∀ a ∈ xs, ∀ b b', I b → f b a = .ok b' → I b') {b r : β} (hb : I b)
    (h : xs.foldlM f b = .ok r) : I r := by
  induction xs generalizing b with
  | nil =>
      cases h
      exact hb
  | cons x xs ih =>
      rw [List.foldlM_cons] at h
      cases hx : f b x with
      | error e => rw [hx] at h; cases h
      | ok b' =>
          rw [hx] at h
          exact ih (fun a ha => hf a (List.mem_cons_of_mem x ha))
            (hf x List.mem_cons_self b b' hb hx) h

/-- The number kind comes with the integer kind. -/
def Whole (ks : KindSet) : Prop := ks.number = true → ks.integer = true

theorem whole_insert {ks : KindSet} (h : Whole ks) {k : Kind} (hk : k ≠ .number) :
    Whole (ks.insert k) := by
  intro hnum
  have hnum : ks.number = true := by
    cases k <;> simp [KindSet.insert, KindSet.ofPred, KindSet.contains] at hnum hk ⊢ <;>
      exact hnum
  simp [KindSet.insert, KindSet.ofPred, KindSet.contains, h hnum]

theorem whole_kindsOf {names : List String} {ks : KindSet} (h : kindsOf place names = .ok ks) :
    Whole ks := by
  unfold kindsOf at h
  refine foldlM_keeps (I := Whole) ?_ (by simp [Whole, KindSet.empty, KindSet.ofPred]) h
  intro name _ b b' hb hstep
  split at hstep
  · cases hstep
    intro _
    simp [KindSet.insert, KindSet.ofPred, KindSet.contains]
  · next k hnot _ =>
      cases hstep
      exact whole_insert hb hnot
  · cases hstep

/-- The kinds that are named are those of one word or of a list of words. -/
theorem readKinds_eq_some {ks : KindSet} (h : readKinds place fields = .ok (some ks)) :
    (∃ name, fields.lookup "type" = some (.str name) ∧ kindsOf place [name] = .ok ks) ∨
    ∃ names, fields.lookup "type" = some (.arr names) ∧
      kindsOf place (names.filterMap Json.text?) = .ok ks := by
  have hmap : ∀ {names}, some <$> kindsOf place names = .ok (some ks) →
      kindsOf place names = .ok ks := by
    intro names hnames
    cases hkinds : kindsOf place names with
    | error e => rw [hkinds] at hnames; cases hnames
    | ok ks' => rw [hkinds] at hnames; cases hnames; rfl
  unfold readKinds at h
  split at h
  · cases h
  · next htype => exact .inl ⟨_, htype, hmap h⟩
  · next htype => exact .inr ⟨_, htype, hmap h⟩
  · cases h

theorem whole_readKinds {ks : KindSet} (h : readKinds place fields = .ok (some ks)) :
    Whole ks := by
  obtain ⟨_, -, h⟩ | ⟨_, -, h⟩ := readKinds_eq_some h
  · exact whole_kindsOf h
  · exact whole_kindsOf h

theorem readValues_of_hereditary (hP : Hereditary P) (hv : P (.obj fields)) {vs : List Json}
    (h : readValues fields = some vs) : ∀ v ∈ vs, P v := by
  unfold readValues at h
  split at h
  · next c hc =>
      cases h
      intro v hmem
      rw [List.mem_singleton] at hmem
      exact hmem ▸ hP.field hv hc
  · obtain ⟨w, hw, hitems⟩ := Option.bind_eq_some_iff.1 h
    intro v hmem
    cases w with
    | arr xs =>
        cases hitems
        exact hP.item (hP.field hv hw) hmem
    | _ => cases hitems

/-- What is read of an object that can be read. -/
theorem readKeywords_eq_ok {k : Schema} (h : readKeywords place fields = .ok k) :
    readKinds place fields = .ok k.kinds ∧ k.values = readValues fields ∧
      k.required = readRequired fields ∧ k.pointer = place := by
  unfold readKeywords at h
  cases hkinds : readKinds place fields with
  | error e => rw [hkinds] at h; cases h
  | ok kinds =>
      rw [hkinds] at h
      cases h
      exact ⟨rfl, rfl, rfl, rfl⟩

/-- The keywords that do not concern other schemas make a proper schema without links. -/
theorem readKeywords_proper (hP : Hereditary P) (hv : P (.obj fields)) {k : Schema}
    (h : readKeywords place fields = .ok k) :
    (∀ ks, k.kinds = some ks → Whole ks) ∧ (∀ vs, k.values = some vs → ∀ v ∈ vs, P v) ∧
      k.required.Ascending := by
  obtain ⟨hkinds, hvalues, hrequired, -⟩ := readKeywords_eq_ok h
  refine ⟨fun ks hks => ?_, fun vs hvs => ?_, hrequired ▸ SortedSet.ascending_ofList⟩
  · exact whole_readKinds (hks ▸ hkinds)
  · exact readValues_of_hereditary hP hv (hvalues.symm.trans hvs)

/-! ## Child schemas -/

theorem Known.mono {t : Session} {c : SchemaId} (hc : Known K s c)
    (h : s.arena.next ≤ t.arena.next) : Known K t c :=
  ⟨Nat.lt_of_lt_of_le hc.1 h, hc.2⟩

theorem reads_loadItems (hload : Reader P K n load) (hs : Readable P K n s) (hn : n ≤ s.arena.next) :
    Reads P K n (loadItems load place fields) s fun r t => ∀ c, r = some c → Known K t c := by
  unfold loadItems
  split
  · exact .pure hs (by simp)
  · exact .fault hs
  · refine .bind (hload _ s hs hn) fun id t ht _ hid => .pure ht ?_
    rintro c ⟨⟩
    exact hid.1

theorem reads_loadProperties (hload : Reader P K n load) (hs : Readable P K n s)
    (hn : n ≤ s.arena.next) (base : Pointer) {keys : List String} {read : Dict String SchemaId}
    (hread : read.keys.Nodup ∧ ∀ c ∈ read.values, Known K s c) :
    Reads P K n (loadProperties load base keys read) s fun r t =>
      r.keys.Nodup ∧ ∀ c ∈ r.values, Known K t c := by
  induction keys generalizing read s with
  | nil => exact .pure hs hread
  | cons key keys ih =>
      unfold loadProperties
      refine .bind (hload _ s hs hn) fun id t ht hst hid => ?_
      refine ih ht (Nat.le_trans hn hst.next) ⟨Dict.nodup_keys_insert hread.1 _ _, ?_⟩
      intro c hc
      obtain ⟨k, hk⟩ := Dict.get?_of_mem_values (Dict.nodup_keys_insert hread.1 _ _) hc
      rw [Dict.get?_insert] at hk
      split at hk
      · cases hk
        exact hid.1
      · exact (hread.2 c (Dict.mem_values_of_get? hk)).mono hst.next

theorem reads_loadExtras (hload : Reader P K n load) (hs : Readable P K n s) (hn : n ≤ s.arena.next) :
    Reads P K n (loadExtras load place fields) s fun r t =>
      ∀ c, r = some (.matching c) → Known K t c := by
  unfold loadExtras
  split
  · exact .pure hs (by simp)
  · exact .pure hs (by simp)
  · refine .bind (hload _ s hs hn) fun id t ht _ hid => .pure ht ?_
    rintro c ⟨⟩
    exact hid.1

theorem reads_loadFrom (hload : Reader P K n load) (hs : Readable P K n s) (hn : n ≤ s.arena.next)
    (base : Pointer) (i : Nat) (items : List Json) :
    Reads P K n (loadFrom load base i items) s fun r t => ∀ c ∈ r, Known K t c := by
  induction items generalizing i s with
  | nil => exact .pure hs (by simp)
  | cons v items ih =>
      unfold loadFrom
      refine .bind (hload _ s hs hn) fun id t ht hst hid => ?_
      refine .bind (ih ht (Nat.le_trans hn hst.next) (i + 1)) fun ids u hu htu hids => ?_
      refine .pure hu fun c hc => ?_
      rcases List.mem_cons.1 hc with rfl | hc
      · exact hid.1.mono htu.next
      · exact hids c hc

theorem reads_loadMembers (hload : Reader P K n load) (hs : Readable P K n s) (hn : n ≤ s.arena.next)
    (keyword : String) :
    Reads P K n (loadMembers load place fields keyword) s fun r t => ∀ c ∈ r, Known K t c := by
  unfold loadMembers
  split
  · exact .pure hs (by simp)
  · exact reads_loadFrom hload hs hn _ 0 _
  · exact .fault hs

/-! ## Schemas -/

theorem readable_push (hs : Readable P K n s) {m : Schema} (hm : Read P K s m) :
    Readable P K n { s with arena := s.arena.push m } where
  proper id := by
    rw [Arena.schema_push, Arena.next_push]
    split
    · exact hm.proper.mono (Nat.le_succ _)
    · exact (hs.proper id).mono (Nat.le_succ _)
  loaded p id h := (hs.loaded p id h).mono (Arena.next_push s.arena m ▸ Nat.le_succ _)
  links id hid := by
    rw [Arena.schema_push]
    split
    · exact hm.links
    · exact hs.links id hid

theorem loads_push (hn : n ≤ s.arena.next) (m : Schema) :
    Loads n s { s with arena := s.arena.push m } where
  rest := ⟨_, _, _, rfl⟩
  next := Arena.next_push s.arena m ▸ Nat.le_succ _
  schema id hid := by
    rw [Arena.schema_push, if_neg (Nat.ne_of_lt (Nat.lt_of_lt_of_le hid hn))]
  loaded _ _ h := h

theorem reads_push (hK : ∀ id, n ≤ id → K id) (hs : Readable P K n s) (hn : n ≤ s.arena.next)
    {m : Schema} (hm : Read P K s m) :
    Reads P K n (push m) s fun id t => n ≤ id ∧ Known K t id ∧ t.loaded = s.loaded := by
  unfold push
  refine .view_bind ?_
  refine .modify_bind ?_ ?_ ?_
  · exact readable_push hs hm
  · exact loads_push hn m
  · refine .pure (readable_push hs hm) ⟨hn, ⟨?_, hK _ hn⟩, rfl⟩
    exact Arena.next_push s.arena m ▸ Nat.lt_succ_self _

theorem reads_warn (hs : Readable P K n s) (w : Warning) :
    Reads P K n (warn w) s fun _ _ => True := by
  have hstep : ∀ ws, Readable P K n { s with warnings := ws } ∧
      Loads n s { s with warnings := ws } := fun _ =>
    ⟨⟨hs.proper, hs.loaded, hs.links⟩, ⟨_, _, _, rfl⟩, Nat.le_refl _, fun _ _ => rfl,
      fun _ _ h => h⟩
  refine ⟨?_, trivial⟩
  dsimp only
  split
  · exact ⟨hs, refl_of (Loads n) s⟩
  · exact hstep _

theorem reads_allowNull (hK : ∀ id, n ≤ id → K id) (hs : Readable P K n s)
    (hn : n ≤ s.arena.next) {m : Schema} (hm : Read P K s m) :
    Reads P K n (allowNull m) s fun r t => Read P K t r := by
  unfold allowNull
  split
  · next ks hks =>
      refine .pure hs ⟨{ hm.proper with kinds := ?_ }, hm.links⟩
      rintro _ ⟨⟩
      exact whole_insert (hm.proper.kinds ks hks) (by decide)
  -- a nullable schema without kinds becomes one of two alternatives
  split
  · refine .bind (reads_push hK hs hn hm) fun inner t ht hst hinner => ?_
    have hnull : Read P K t ({ Schema.blank (m.pointer.push "nullable") with
        kinds := some (.single .null) } : Schema) :=
      ⟨{ Schema.proper_blank P t.arena.next (m.pointer.push "nullable") with
        kinds := by rintro _ ⟨⟩; decide }, by rintro _ ⟨⟩⟩
    refine .bind (reads_push hK ht (Nat.le_trans hn hst.next) hnull)
      fun null u hu htu hnull => ?_
    have hknown : ∀ c ∈ ({ Schema.blank m.pointer with anyOf := [inner, null] } : Schema).links,
        Known K u c := by
      intro c hc
      simp only [Schema.links, Schema.members, Schema.blank, Arena.extraSchema?, Dict.values,
        Dict.empty, List.map_nil, Option.toList_none, List.append_nil, List.nil_append,
        List.mem_cons, List.not_mem_nil, or_false] at hc
      rcases hc with rfl | rfl
      · exact hinner.2.1.mono htu.next
      · exact hnull.2.1
    refine .pure hu ⟨{ Schema.proper_blank P u.arena.next m.pointer with links := ?_ }, ?_⟩
    · exact fun c hc => (hknown c hc).1
    · exact fun c hc => (hknown c hc).2
  · exact .pure hs hm

theorem reads_readSchema (hK : ∀ id, n ≤ id → K id) (hP : Hereditary P)
    (hload : Reader P K n load) (hs : Readable P K n s) (hn : n ≤ s.arena.next) {v : Json}
    (hv : P v) :
    Reads P K n (readSchema load place v) s fun r t => Read P K t r := by
  unfold readSchema
  split
  · exact .pure hs (read_blank _)
  · refine .pure hs ⟨{ Schema.proper_blank P _ place with kinds := ?_ }, by rintro _ ⟨⟩⟩
    rintro _ ⟨⟩
    decide
  · next fields =>
      refine .bind (Q := fun k t => (∀ ks, k.kinds = some ks → Whole ks) ∧
        (∀ vs, k.values = some vs → ∀ v ∈ vs, P v) ∧ k.required.Ascending)
        (.ofExcept hs fun k hk => readKeywords_proper hP hv hk) fun k s₀ hs₀ h₀ hk => ?_
      have hn₀ := Nat.le_trans hn h₀.next
      refine .bind (reads_loadItems hload hs₀ hn₀) fun items s₁ hs₁ h₁ hitems => ?_
      have hn₁ := Nat.le_trans hn₀ h₁.next
      refine .bind (reads_loadProperties hload hs₁ hn₁ _ ⟨List.nodup_nil, by simp [Dict.values,
        Dict.empty]⟩) fun props s₂ hs₂ h₂ hprops => ?_
      have hn₂ := Nat.le_trans hn₁ h₂.next
      refine .bind (reads_loadExtras hload hs₂ hn₂) fun extras s₃ hs₃ h₃ hextras => ?_
      have hn₃ := Nat.le_trans hn₂ h₃.next
      refine .bind (reads_loadMembers hload hs₃ hn₃ "allOf") fun alls s₄ hs₄ h₄ hall => ?_
      have hn₄ := Nat.le_trans hn₃ h₄.next
      refine .bind (reads_loadMembers hload hs₄ hn₄ "anyOf") fun anys s₅ hs₅ h₅ hany => ?_
      have hn₅ := Nat.le_trans hn₄ h₅.next
      refine .bind (reads_loadMembers hload hs₅ hn₅ "oneOf") fun ones s₆ hs₆ h₆ hone => ?_
      have hn₆ := Nat.le_trans hn₅ h₆.next
      dsimp only
      generalize hm : ({ k with
        items := items, properties := props, extras := extras,
        allOf := alls, anyOf := anys, oneOf := ones } : Schema) = m
      -- a warning comes in between where there is a keyword that is not supported
      have hrest : ∀ u, Readable P K n u → s₆.arena.next ≤ u.arena.next →
          Reads P K n (if flag fields "nullable" then allowNull m else return m) u
            fun r t => Read P K t r := by
        intro u hu hnu
        have hknown : ∀ c ∈ m.links, Known K u c := by
          subst hm
          intro c hc
          simp only [Schema.links, Schema.members, List.mem_append, Option.mem_toList,
            Arena.extraSchema?_eq_some] at hc
          have h₄₆ := Nat.le_trans h₅.next (Nat.le_trans h₆.next hnu)
          have h₃₆ := Nat.le_trans h₄.next h₄₆
          have h₂₆ := Nat.le_trans h₃.next h₃₆
          rcases hc with ((hc | hc) | hc) | (hc | hc) | hc
          · exact (hitems c hc).mono (Nat.le_trans h₂.next h₂₆)
          · exact (hprops.2 c hc).mono h₂₆
          · exact (hextras c hc).mono h₃₆
          · exact (hall c hc).mono h₄₆
          · exact (hany c hc).mono (Nat.le_trans h₆.next hnu)
          · exact (hone c hc).mono hnu
        have hread : Read P K u m := by
          refine ⟨⟨fun c hc => (hknown c hc).1, ?_, ?_, ?_, ?_⟩, fun c hc => (hknown c hc).2⟩
          · exact hm ▸ hprops.1
          · exact hm ▸ hk.1
          · exact hm ▸ hk.2.1
          · exact hm ▸ hk.2.2
        split
        · exact reads_allowNull hK hu (Nat.le_trans hn₆ hnu) hread
        · exact .pure hu hread
      split
      · refine .bind (reads_warn hs₆ _) fun _ u hu hs₆u _ => ?_
        exact hrest u hu hs₆u.next
      · exact hrest s₆ hs₆ (Nat.le_refl _)
  · exact .fault hs

/-! ## Loading -/

/-- A pointer that leads to no schema yet is made to lead to one. -/
theorem reads_remember (hs : Readable P K n s) {p : Pointer} {id : SchemaId}
    (hid : Known K s id) (hnew : ∀ i, s.loaded.get? p = some i → i = id) :
    Reads P K n (remember p id) s fun _ t =>
      t.loaded = s.loaded.insert p id ∧ t.arena = s.arena := by
  refine ⟨⟨⟨hs.proper, ?_, hs.links⟩, ⟨_, _, _, rfl⟩, Nat.le_refl _, fun _ _ => rfl, ?_⟩,
    rfl, rfl⟩
  · intro q i hi
    rw [Dict.get?_insert] at hi
    split at hi
    · cases hi
      exact hid
    · exact hs.loaded q i hi
  · intro q i hi
    rw [Dict.get?_insert]
    split
    · next heq => rw [hnew i (heq ▸ hi)]
    · exact hi

theorem next_replace (id : SchemaId) (m : Schema) :
    (s.arena.replace id m).next = s.arena.next := by
  simp [Arena.replace, Arena.next]

theorem readable_replace (hs : Readable P K n s) {m : Schema} (hm : Read P K s m)
    (id : SchemaId) : Readable P K n { s with arena := s.arena.replace id m } where
  proper i := by
    rw [Arena.schema_replace, next_replace]
    split
    · exact hm.proper
    · exact hs.proper i
  loaded p i h := (hs.loaded p i h).mono (Nat.le_of_eq (next_replace id m).symm)
  links i hi := by
    rw [Arena.schema_replace]
    split
    · exact hm.links
    · exact hs.links i hi

theorem loads_replace {id : SchemaId} (hid : n ≤ id) (m : Schema) :
    Loads n s { s with arena := s.arena.replace id m } where
  rest := ⟨_, _, _, rfl⟩
  next := Nat.le_of_eq (next_replace id m).symm
  schema i hi := by
    rw [Arena.schema_replace, if_neg]
    exact fun h => Nat.ne_of_lt (Nat.lt_of_lt_of_le hi hid) h.1
  loaded _ _ h := h

theorem reader_loadStep (hK : ∀ id, n ≤ id → K id) (hP : Hereditary P) {document : Json}
    (hd : P document) (hload : Reader P K n load) : Reader P K n (loadStep document load) := by
  intro p s hs hn
  unfold loadStep
  refine .view_bind ?_
  split
  · next id hid => exact .pure hs ⟨hs.loaded p id hid, hid⟩
  -- the pointer is new; what it leads to may have been loaded under another
  next hp =>
  refine .bind (Q := fun r t => P r.2 ∧ t = s) (.ofExcept hs fun r hr =>
    ⟨Document.resolve_of_hereditary hP hd hr, rfl⟩) ?_
  rintro ⟨target, v⟩ t ht _ ⟨hv, rfl⟩
  refine .view_bind ?_
  split
  · next id hid =>
      have hknown := hs.loaded target id hid
      refine .bind (reads_remember hs hknown fun i hi => by simp [hp] at hi)
        fun _ u hu hsu hrem => ?_
      refine .pure hu ⟨hknown.mono hsu.next, ?_⟩
      rw [hrem.1, Dict.get?_insert_self]
  next htarget =>
  -- both pointers are taken before the schema is read, so that a cycle ends at the blank one
  refine .bind (reads_push hK hs hn (read_blank target)) ?_
  rintro id u hu hsu ⟨hid, hknown, hloaded⟩
  refine .bind (reads_remember hu hknown fun i hi => by rw [hloaded, htarget] at hi; cases hi)
    fun _ v₁ hv₁ huv hrem₁ => ?_
  refine .bind (reads_remember hv₁ (hknown.mono huv.next) fun i hi => ?_)
    fun _ v₂ hv₂ hv₁₂ hrem₂ => ?_
  · rw [hrem₁.1, Dict.get?_insert, hloaded] at hi
    split at hi
    · cases hi; rfl
    · rw [hp] at hi; cases hi
  have hn₂ : n ≤ v₂.arena.next := Nat.le_trans hn
    (Nat.le_trans hsu.next (Nat.le_trans huv.next hv₁₂.next))
  refine .bind (reads_readSchema hK hP hload hv₂ hn₂ hv) fun m w hw hv₂w hm => ?_
  -- the schema that was read replaces the blank one
  refine .modify_bind ?_ ?_ ?_
  · exact readable_replace hw hm id
  · exact loads_replace hid m
  · refine .pure (readable_replace hw hm id) ⟨?_, ?_⟩
    · refine hknown.mono (Nat.le_trans huv.next (Nat.le_trans hv₁₂.next ?_))
      exact Nat.le_trans hv₂w.next (Nat.le_of_eq (next_replace id m).symm)
    · exact hv₂w.loaded p id (by rw [hrem₂.1, Dict.get?_insert_self])

theorem reader_loadWithin (hK : ∀ id, n ≤ id → K id) (hP : Hereditary P) {document : Json}
    (hd : P document) (calls : Nat) : Reader P K n (loadWithin document calls) := by
  induction calls with
  | zero => exact fun _ _ hs _ => .exhausted hs
  | succ calls ih => exact reader_loadStep hK hP hd ih

/-- Loading adds schemas and pointers, whatever comes of it. -/
theorem reader_load (hK : ∀ id, n ≤ id → K id) (hP : Hereditary P) {document : Json}
    (hd : P document) : Reader P K n (Session.load document) :=
  reader_loadWithin hK hP hd (loadBound document)

end Session

end ApiModel
