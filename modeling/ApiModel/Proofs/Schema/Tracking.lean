/-
  ApiModel.Proofs.Schema.Tracking

  The algebra follows the functions without a memo. Each step comes to the value that its counterpart
  on names has, when the tasks that come up do; so does every supply of nested calls.
-/
import ApiModel.Proofs.Schema.Follow

namespace ApiModel.Arena

open Mentions (ids rename)

variable {O : Set SchemaId} {ν : Nomenclature} {A B : Allowance} {ℓ ℓ' : Labels} {a b : Arena}
  {solve : Solver} {x y x' y' : SchemaId}

/-! ## What was put off stays put off -/

section Keeps

theorem keeps_store (s : Schema) : Keeps (store s) := obeys_store Change.retains s

theorem keeps_reuseOrStore (x y : SchemaId) (s₁ s₂ out : Schema) :
    Keeps (reuseOrStore x y s₁ s₂ out) := obeys_reuseOrStore Change.retains x y s₁ s₂ out

/-- A conjunction put off is entered for good. -/
theorem keeps_putOff (x y : SchemaId) (place : Pointer) : Keeps (putOff x y place) :=
  obeys_putOff Change.retains x y place

variable (hsolve : ∀ task, Keeps (solve task))
include hsolve

theorem keeps_conjoinExtras (s₁ s₂ : Schema) (place : Pointer) :
    Keeps (conjoinExtras solve s₁ s₂ place) :=
  obeys_conjoinExtras Change.retains hsolve s₁ s₂ place

theorem keeps_conjoinProperties (s₁ s₂ : Schema) (base : Pointer) (keys : List String)
    (merged : Dict String SchemaId) :
    Keeps (conjoinProperties solve s₁ s₂ base keys merged) :=
  obeys_conjoinProperties Change.retains hsolve s₁ s₂ base keys merged

theorem keeps_crossPairs (place : Pointer) (pairs : List (SchemaId × SchemaId))
    (found : List SchemaId) : Keeps (crossPairs solve place pairs found) :=
  obeys_crossPairs (R := Retains) hsolve place pairs found

theorem keeps_cross (left right : List SchemaId) (place : Pointer) :
    Keeps (cross solve left right place) := keeps_crossPairs hsolve _ _ _

theorem keeps_survivors (own : SchemaId) (group : Pointer) (i : Nat) (ms : List SchemaId) :
    Keeps (survivors solve own group i ms) :=
  obeys_survivors (R := Retains) hsolve own group i ms

theorem keeps_conjoinAll (place : Pointer) (own : SchemaId) (ms : List SchemaId) :
    Keeps (conjoinAll solve place own ms) :=
  obeys_conjoinAll (R := Retains) hsolve place own ms

omit hsolve in
/-- A conjunction that was put off is so after every task. -/
theorem keeps_solve (calls : Nat) (task : Task) : Keeps (Arena.solve calls task) :=
  obeys_solve Change.retains calls task

end Keeps

/-! ## Solvers -/

/-- A sound solver that follows the answers on names. -/
structure Guided (O : Set SchemaId) (ν : Nomenclature) (solve : Solver) : Prop where
  sound : Sound Law.traced solve
  keeps : ∀ task, Keeps (solve task)
  normalize : ∀ {ℓ a x x'}, Labelled O ν ℓ a → Held O ℓ a x x' →
    Follows O ν .none ℓ a (solve (.normalize x)) fun n => ν.eval n (.normalize x')
  conjoin : ∀ {ℓ a x y x' y'} place, Labelled O ν ℓ a → Held O ℓ a x x' → Held O ℓ a y y' →
    Follows O ν .none ℓ a (solve (.conjoin x y place)) fun n => ν.eval n (.conjoin x' y' place)

namespace Guided

variable {β : Type} [Mentions β] {f : Option SchemaId → ArenaWork β}
  {cf : Nat → Option SchemaId → Option β}

theorem normalize_bind (h : Guided O ν solve) (ha : Labelled O ν ℓ a) (hx : Held O ℓ a x x')
    (hkeeps : ∀ r, Keeps (f r))
    (hf : ∀ r b ℓ' r', Labelled O ν ℓ' b → Advances a b → b.progress.get? x = some (.done r) →
      Reached O ν .none ℓ a (fun n => ν.eval n (.normalize x')) r b ℓ' r' →
      Follows O ν B ℓ' b (f r) fun n => cf n r') :
    Follows O ν B ℓ a (solve (.normalize x) >>= f)
      fun n => ν.eval n (.normalize x') >>= cf n :=
  .bind ha (.of_none B) (h.normalize ha hx)
    (h.sound.normalize ha.toLawful (named_id.1 hx).1.lt fun _ _ => trivial) hkeeps hf

theorem conjoin_bind (h : Guided O ν solve) (ha : Labelled O ν ℓ a) {place : Pointer}
    (hx : Held O ℓ a x x') (hy : Held O ℓ a y y') (hkeeps : ∀ r, Keeps (f r))
    (hf : ∀ r b ℓ' r', Labelled O ν ℓ' b → Advances a b →
      Reached O ν .none ℓ a (fun n => ν.eval n (.conjoin x' y' place)) r b ℓ' r' →
      (∀ n, r = some n → b.IsForm n) → Follows O ν B ℓ' b (f r) fun n => cf n r') :
    Follows O ν B ℓ a (solve (.conjoin x y place) >>= f)
      fun n => ν.eval n (.conjoin x' y' place) >>= cf n :=
  .bind ha (.of_none B) (h.conjoin place ha hx hy)
    (h.sound.conjoin ha.toLawful (named_id.1 hx).1.lt (named_id.1 hy).1.lt fun _ _ => trivial) hkeeps
    fun r b ℓ' r' hb hab hjoined hreached =>
      hf r b ℓ' r' hb hab hreached fun _ hn => (hn ▸ hjoined).isForm

end Guided

/-! ## Child schemas -/

/-- What stands for operands that are followed is followed itself. -/
theorem inner_of_operands {P : Json → Prop} {d : SchemaId} {os : SortedSet SchemaId}
    (ha : a.WellFormed P) (hO : ∀ z ∈ O, a.Raw z) (hd : a.operands.get? d = some os)
    (h : ∀ c ∈ os.elements, Inner O a c) : Inner O a d := by
  obtain ⟨hlt, p, hp⟩ := ha.operands d os hd
  refine inner_of_links hlt (fun hdO => by simp [(hO d hdO).2] at hd) fun c hc => ?_
  rw [Link, hp, Schema.links_conjunction] at hc
  exact h c hc

/-- To put off a conjunction of schemas that are followed leaves an entry for one. -/
theorem not_promptBut_putOff (ha : Labelled O ν ℓ a) (hx : Inner O a x) (hy : Inner O a y)
    (hne : x ≠ y) (place : Pointer) : ¬((putOff x y place).run a).2.PromptBut O := by
  intro hp
  have hprompt : a.PromptBut O :=
    promptBut_of_retains ha.toWellFormed (keeps_putOff x y place a) hp
  -- neither has been put off, so the operands are the two
  have hops : ∀ {z}, Inner O a z → a.operandsOf z = .singleton z := fun {z} hz => by
    have hnone : a.operands.get? z = none := by
      by_contra hno
      exact hprompt z hno hz
    rw [operandsOf, hnone, Option.getD_none]
  have hmem : ∀ c, c ∈ ((a.operandsOf x).union (a.operandsOf y)).elements ↔ c = x ∨ c = y := by
    intro c
    rw [SortedSet.mem_union, hops hx, hops hy]
    simp [SortedSet.singleton]
  have hinner : ∀ c ∈ ((a.operandsOf x).union (a.operandsOf y)).elements, Inner O a c := by
    intro c hc
    rcases (hmem c).1 hc with rfl | rfl
    · exact hx
    · exact hy
  unfold putOff at hp
  rw [Work.run_bind, Work.run_view] at hp
  dsimp only at hp
  split at hp
  · next only honly =>
      have hxo := (hmem x).2 (.inl rfl)
      have hyo := (hmem y).2 (.inr rfl)
      rw [honly, List.mem_singleton] at hxo hyo
      exact hne (hxo.trans hyo.symm)
  rw [Work.run_bind, Work.run_view] at hp
  dsimp only at hp
  split at hp
  · next d hd =>
      have hdops := ha.deferred _ d hd
      exact hprompt d (by simp [hdops])
        (inner_of_operands ha.toWellFormed (fun z hz => (ha.outer z hz).2) hdops hinner)
  · change (a.addDeferred _ place).PromptBut O at hp
    have hadds := adds_addDeferred a ((a.operandsOf x).union (a.operandsOf y)) place
    refine hp a.next (by simp [operands_addDeferred]) (inner_of_links ?_ ?_ fun c hc => ?_)
    · exact hadds.next ▸ Nat.lt_succ_self _
    · exact fun hO => Nat.lt_irrefl _ (ha.outer _ hO).1
    · rw [Link, hadds.schema, if_pos rfl, Schema.links_conjunction] at hc
      have hci := hinner c hc
      exact (hadds.inner_iff ha.toWellFormed hci.lt).2 hci

/-- What follows is trivial where a conjunction was put off. -/
theorem follows_of_not_promptBut {α : Type} [Mentions α] {w : ArenaWork α} {cx : Nat → Option α}
    (h : ¬(w.run a).2.PromptBut O) : Follows O ν A ℓ a w cx := by
  unfold Follows Work.Ends
  rcases hrun : w.run a with ⟨e | r, b⟩ <;> rw [hrun] at h
  · exact fun hp => absurd hp h
  · exact fun hp => absurd hp h

theorem follows_conjoinChildren (h : Guided O ν solve) (ha : Labelled O ν ℓ a)
    (hx : Held O ℓ a x x') (hy : Held O ℓ a y y') (place : Pointer) :
    Follows O ν .none ℓ a (conjoinChildren solve x y place)
      fun n => (ν.eval n).children x' y' place := by
  unfold conjoinChildren Asker.children
  simp only [ha.tracks.eq_iff (fun _ h => h.lt) hx hy]
  by_cases hxy : x = y
  · simp only [if_pos hxy]
    exact .pure ha.tracks (named_some.2 ⟨_, rfl, hx⟩)
  simp only [if_neg hxy]
  refine .view_bind ?_
  split
  · refine follows_of_not_promptBut fun hp => ?_
    refine not_promptBut_putOff ha (named_id.1 hx).1 (named_id.1 hy).1 hxy place ?_
    rw [Work.run_bind] at hp
    rcases hrun : (putOff x y place).run a with ⟨e | r, b⟩ <;> rw [hrun] at hp <;> exact hp
  refine h.normalize_bind ha hx (fun fx => (h.keeps _).bind fun fy => ?_)
    fun fx b ℓb fx' hb hab hfx hrb => ?_
  · split
    · refine (h.keeps _).bind fun r => ?_
      split <;> exact keeps_pure _
    · exact keeps_pure _
  refine h.normalize_bind hb (hrb.carry hy) (fun fy => ?_) fun fy c ℓc fy' hc hbc hfy hrc => ?_
  · split
    · refine (h.keeps _).bind fun r => ?_
      split <;> exact keeps_pure _
    · exact keeps_pure _
  have hfxc := hrc.carry hrb.named
  cases fx with
  | none =>
      obtain rfl := named_none.1 hfxc
      exact .pure hc.tracks (named_none.2 rfl)
  | some nx =>
  obtain ⟨nx', rfl, hnx⟩ := named_some.1 hfxc
  cases fy with
  | none =>
      obtain rfl := named_none.1 hrc.named
      exact .pure hc.tracks (named_none.2 rfl)
  | some ny =>
  obtain ⟨ny', rfl, hny⟩ := named_some.1 hrc.named
  dsimp only
  refine h.conjoin_bind hc hnx hny (fun r => ?_) fun r d ℓd r' hd hcd hrd hform => ?_
  · split <;> exact keeps_pure _
  cases r with
  | none =>
      obtain rfl := named_none.1 hrd.named
      exact .pure hd.tracks (named_none.2 rfl)
  | some r =>
  obtain ⟨r', rfl, hr⟩ := named_some.1 hrd.named
  refine .pure hd.tracks (named_some.2 ⟨_, rfl, ?_⟩)
  -- the result is an operand's form under its name exactly when it is under its number
  simp only [hd.tracks.eq_iff (fun _ h => h.lt) hr (hrd.carry hnx),
    hd.tracks.eq_iff (fun _ h => h.lt) hr (hrd.carry hny)]
  split
  · exact hrd.carry (hrc.carry (hrb.carry hx))
  split
  · exact hrd.carry (hrc.carry (hrb.carry hy))
  · exact hr

section Parts

variable {s₁ s₂ s₁' s₂' : Schema}

/-- The conjunction of two child schemas, as part of a computation. -/
theorem Guided.children_bind {β : Type} [Mentions β] {f : Option SchemaId → ArenaWork β}
    {cf : Nat → Option SchemaId → Option β} (h : Guided O ν solve) (ha : Labelled O ν ℓ a)
    (hx : Held O ℓ a x x') (hy : Held O ℓ a y y') {place : Pointer} (hkeeps : ∀ r, Keeps (f r))
    (hf : ∀ r b ℓ' r', Labelled O ν ℓ' b → Advances a b →
      Reached O ν .none ℓ a (fun n => (ν.eval n).children x' y' place) r b ℓ' r' →
      Follows O ν B ℓ' b (f r) fun n => cf n r') :
    Follows O ν B ℓ a (conjoinChildren solve x y place >>= f)
      fun n => (ν.eval n).children x' y' place >>= cf n :=
  .bind ha (.of_none B) (follows_conjoinChildren h ha hx hy place)
    (runs_conjoinChildren h.sound ha.toLawful (named_id.1 hx).1.lt (named_id.1 hy).1.lt
      fun _ _ => trivial) hkeeps fun r b ℓ' r' hb hab _ hr => hf r b ℓ' r' hb hab hr

theorem follows_conjoinItems (h : Guided O ν solve) (ha : Labelled O ν ℓ a) (h₁ : Held O ℓ a s₁ s₁')
    (h₂ : Held O ℓ a s₂ s₂') (place : Pointer) :
    Follows O ν .none ℓ a (conjoinItems solve s₁ s₂ place)
      fun n => (ν.eval n).items s₁' s₂' place := by
  have hi₁ := h₁.items
  have hi₂ := h₂.items
  unfold conjoinItems Asker.items
  generalize s₁.items = i₁, s₁'.items = i₁', s₂.items = i₂, s₂'.items = i₂' at hi₁ hi₂ ⊢
  cases i₁ with
  | none =>
      obtain rfl := named_none.1 hi₁
      exact .pure ha.tracks (named_some.2 ⟨_, rfl, hi₂⟩)
  | some x =>
  obtain ⟨x', rfl, hx⟩ := named_some.1 hi₁
  cases i₂ with
  | none =>
      obtain rfl := named_none.1 hi₂
      exact .pure ha.tracks (named_some.2 ⟨_, rfl, hi₁⟩)
  | some y =>
  obtain ⟨y', rfl, hy⟩ := named_some.1 hi₂
  dsimp only
  refine h.children_bind ha hx hy (fun r => ?_) fun r b ℓ' r' hb _ hr => ?_
  · split <;> exact keeps_pure _
  cases r with
  | none =>
      obtain rfl := named_none.1 hr.named
      exact .pure hb.tracks (named_none.2 rfl)
  | some z =>
      obtain ⟨z', rfl, hz⟩ := named_some.1 hr.named
      exact .pure hb.tracks (named_some.2 ⟨_, rfl, named_some.2 ⟨z', rfl, hz⟩⟩)

theorem follows_conjoinExtras (h : Guided O ν solve) (ha : Labelled O ν ℓ a)
    (h₁ : Held O ℓ a s₁ s₁') (h₂ : Held O ℓ a s₂ s₂') (place : Pointer) :
    Follows O ν .none ℓ a (conjoinExtras solve s₁ s₂ place)
      fun n => (ν.eval n).extras s₁' s₂' place := by
  have he₁ := h₁.extras
  have he₂ := h₂.extras
  unfold conjoinExtras Asker.extras
  generalize s₁.extras = e₁, s₁'.extras = e₁', s₂.extras = e₂, s₂'.extras = e₂' at he₁ he₂ ⊢
  have hclosed : Held O ℓ a (some (Extras.allowed false)) (some (.allowed false)) :=
    named_some.2 ⟨_, rfl, named_allowed.2 rfl⟩
  rcases e₁ with _ | ⟨_ | _⟩ | x
  · obtain rfl := named_none.1 he₁
    exact .pure ha.tracks he₂
  · obtain ⟨_, rfl, hx⟩ := named_some.1 he₁
    obtain rfl := named_allowed.1 hx
    -- the first side is closed: only a second one that allows everything leaves it as it is
    rcases e₂ with _ | ⟨_ | _⟩ | y
    · obtain rfl := named_none.1 he₂
      exact .pure ha.tracks hclosed
    · obtain ⟨_, rfl, hy⟩ := named_some.1 he₂
      obtain rfl := named_allowed.1 hy
      exact .pure ha.tracks hclosed
    · obtain ⟨_, rfl, hy⟩ := named_some.1 he₂
      obtain rfl := named_allowed.1 hy
      exact .pure ha.tracks hclosed
    · obtain ⟨_, rfl, hy⟩ := named_some.1 he₂
      obtain ⟨y', rfl, -⟩ := named_matching.1 hy
      exact .pure ha.tracks hclosed
  · obtain ⟨_, rfl, hx⟩ := named_some.1 he₁
    obtain rfl := named_allowed.1 hx
    exact .pure ha.tracks he₂
  obtain ⟨_, rfl, hm₁⟩ := named_some.1 he₁
  obtain ⟨x', rfl, hx⟩ := named_matching.1 hm₁
  rcases e₂ with _ | ⟨_ | _⟩ | y
  · obtain rfl := named_none.1 he₂
    exact .pure ha.tracks he₁
  · obtain ⟨_, rfl, hy⟩ := named_some.1 he₂
    obtain rfl := named_allowed.1 hy
    exact .pure ha.tracks hclosed
  · obtain ⟨_, rfl, hy⟩ := named_some.1 he₂
    obtain rfl := named_allowed.1 hy
    exact .pure ha.tracks he₁
  obtain ⟨_, rfl, hm₂⟩ := named_some.1 he₂
  obtain ⟨y', rfl, hy⟩ := named_matching.1 hm₂
  dsimp only
  refine h.children_bind ha hx hy (fun r => ?_) fun r b ℓ' r' hb _ hr => ?_
  · split <;> exact keeps_pure _
  cases r with
  | none =>
      obtain rfl := named_none.1 hr.named
      exact .pure hb.tracks (named_some.2 ⟨_, rfl, named_allowed.2 rfl⟩)
  | some z =>
      obtain ⟨z', rfl, hz⟩ := named_some.1 hr.named
      exact .pure hb.tracks (named_some.2 ⟨_, rfl, named_matching.2 ⟨z', rfl, hz⟩⟩)

theorem follows_conjoinProperty (h : Guided O ν solve) (ha : Labelled O ν ℓ a)
    (h₁ : Held O ℓ a s₁ s₁') (h₂ : Held O ℓ a s₂ s₂') (key : String) (place : Pointer) :
    Follows O ν .none ℓ a (conjoinProperty solve s₁ s₂ key place)
      fun n => (ν.eval n).property s₁' s₂' key place := by
  have hp₁ := h₁.property key
  have hp₂ := h₂.property key
  have he₁ := h₁.extraSchema?
  have he₂ := h₂.extraSchema?
  unfold conjoinProperty Asker.property
  generalize s₁.properties.get? key = p₁, s₁'.properties.get? key = p₁',
    s₂.properties.get? key = p₂, s₂'.properties.get? key = p₂' at hp₁ hp₂ ⊢
  generalize extraSchema? s₁ = e₁, extraSchema? s₁' = e₁', extraSchema? s₂ = e₂,
    extraSchema? s₂' = e₂' at he₁ he₂ ⊢
  cases p₁ with
  | none =>
      obtain rfl := named_none.1 hp₁
      cases p₂ with
      | none =>
          obtain rfl := named_none.1 hp₂
          exact .pure ha.tracks (named_none.2 rfl)
      | some y =>
          obtain ⟨y', rfl, hy⟩ := named_some.1 hp₂
          cases e₁ with
          | none =>
              obtain rfl := named_none.1 he₁
              exact .pure ha.tracks (named_some.2 ⟨_, rfl, hy⟩)
          | some e =>
              obtain ⟨e', rfl, he⟩ := named_some.1 he₁
              exact follows_conjoinChildren h ha he hy place
  | some x =>
      obtain ⟨x', rfl, hx⟩ := named_some.1 hp₁
      cases p₂ with
      | none =>
          obtain rfl := named_none.1 hp₂
          cases e₂ with
          | none =>
              obtain rfl := named_none.1 he₂
              exact .pure ha.tracks (named_some.2 ⟨_, rfl, hx⟩)
          | some e =>
              obtain ⟨e', rfl, he⟩ := named_some.1 he₂
              exact follows_conjoinChildren h ha hx he place
      | some y =>
          obtain ⟨y', rfl, hy⟩ := named_some.1 hp₂
          exact follows_conjoinChildren h ha hx hy place

theorem follows_conjoinProperties (h : Guided O ν solve) (ha : Labelled O ν ℓ a)
    (h₁ : Held O ℓ a s₁ s₁') (h₂ : Held O ℓ a s₂ s₂') {keys : List String}
    (hkeys : ∀ k ∈ keys, k ∈ mergedKeys s₁ s₂)
    {merged merged' : Dict String SchemaId} (hm : Held O ℓ a merged merged') (base : Pointer)
    (hproper₁ : s₁.Proper (fun _ => True) a.next) (hproper₂ : s₂.Proper (fun _ => True) a.next) :
    Follows O ν .none ℓ a (conjoinProperties solve s₁ s₂ base keys merged)
      fun n => (ν.eval n).properties s₁' s₂' base keys merged' := by
  induction keys generalizing merged merged' a ℓ with
  | nil => exact .pure ha.tracks (named_some.2 ⟨_, rfl, hm⟩)
  | cons key keys ih =>
      unfold conjoinProperties Asker.properties
      have hscope : Scoped a s₁ s₂ base fun _ => True := fun _ _ _ _ _ _ => trivial
      have hruns := runs_conjoinProperty h.sound ha.toLawful hproper₁ hproper₂ hscope
        (hkeys key (by simp)) (p := base.push key) fun _ hq => ⟨key, hq⟩
      refine .bind ha (.refl _) (follows_conjoinProperty h ha h₁ h₂ key _) hruns
        (fun child => ?_) fun child b ℓ' child' hb hab _ hr => ?_
      · split
        · exact keeps_conjoinProperties h.keeps _ _ _ _ _
        · exact keeps_pure _
      cases child with
      | none =>
          obtain rfl := named_none.1 hr.named
          exact .pure hb.tracks (named_none.2 rfl)
      | some child =>
          obtain ⟨child', rfl, hchild⟩ := named_some.1 hr.named
          exact ih hb (hr.carry h₁) (hr.carry h₂) (fun k hk => hkeys k (by simp [hk]))
            (named_insert (hr.carry hm) key hchild) (hproper₁.mono hab.next)
            (hproper₂.mono hab.next)

end Parts

/-! ## Alternatives -/

theorem follows_crossPairs (h : Guided O ν solve) (ha : Labelled O ν ℓ a) (place : Pointer)
    {pairs pairs' : List (SchemaId × SchemaId)} {found found' : List SchemaId}
    (hpairs : Held O ℓ a pairs pairs') (hfound : Held O ℓ a found found') :
    Follows O ν .none ℓ a (crossPairs solve place pairs found)
      fun n => (ν.eval n).crossPairs place pairs' found' := by
  induction pairs generalizing pairs' found found' a ℓ with
  | nil =>
      obtain rfl := named_nil.1 hpairs
      exact .pure ha.tracks hfound
  | cons e rest ih =>
      obtain ⟨e', rest', rfl, he, hrest⟩ := named_cons.1 hpairs
      obtain ⟨l, r⟩ := e
      obtain ⟨l', r', rfl, hl, hr⟩ := named_pair.1 he
      have hlength : found'.length = found.length := by
        rw [(named_ids.1 hfound).2, List.length_map]
      unfold crossPairs Asker.crossPairs
      rw [hlength]
      refine h.conjoin_bind ha hl hr (fun branch => ?_)
        fun branch b ℓ' branch' hb hab hreached _ => ?_
      · split <;> exact keeps_crossPairs h.keeps _ _ _
      have hfound := hreached.carry hfound
      cases branch with
      | none =>
          obtain rfl := named_none.1 hreached.named
          exact ih hb (hreached.carry hrest) hfound
      | some branch =>
          obtain ⟨branch', rfl, hbranch⟩ := named_some.1 hreached.named
          have hmem : found'.contains branch' = found.contains branch := by
            rw [Bool.eq_iff_iff, List.contains_iff_mem, List.contains_iff_mem]
            exact hb.tracks.mem_iff (fun _ h => h.lt) hbranch hfound
          dsimp only
          rw [hmem]
          refine ih hb (hreached.carry hrest) ?_
          split
          · exact hfound
          · exact named_append hfound (named_cons.2 ⟨_, _, rfl, hbranch, named_nil.2 rfl⟩)

theorem follows_cross (h : Guided O ν solve) (ha : Labelled O ν ℓ a) (place : Pointer)
    {left left' right right' : List SchemaId} (hl : Held O ℓ a left left')
    (hr : Held O ℓ a right right') :
    Follows O ν .none ℓ a (cross solve left right place)
      fun n => (ν.eval n).cross left' right' place := by
  refine follows_crossPairs h ha place ?_ (named_nil.2 rfl)
  induction left generalizing left' with
  | nil =>
      obtain rfl := named_nil.1 hl
      exact named_nil.2 rfl
  | cons l left ih =>
      obtain ⟨l', k, rfl, hl, hleft⟩ := named_cons.1 hl
      rw [List.flatMap_cons, List.flatMap_cons]
      refine named_append ?_ (ih hleft)
      clear ih hleft
      induction right generalizing right' with
      | nil =>
          obtain rfl := named_nil.1 hr
          exact named_nil.2 rfl
      | cons r right ih =>
          obtain ⟨r', k, rfl, hr, hright⟩ := named_cons.1 hr
          exact named_cons.2 ⟨_, _, rfl, named_pair.2 ⟨l', r', rfl, hl, hr⟩, ih hright⟩

theorem follows_survivors (h : Guided O ν solve) (ha : Labelled O ν ℓ a) {own own' : SchemaId}
    (hown : Held O ℓ a own own') (group : Pointer) (i : Nat) {ms ms' : List SchemaId}
    (hms : Held O ℓ a ms ms') :
    Follows O ν .none ℓ a (survivors solve own group i ms)
      fun n => (ν.eval n).survivors own' group i ms' := by
  induction ms generalizing ms' own' a ℓ i with
  | nil =>
      obtain rfl := named_nil.1 hms
      exact .pure ha.tracks (named_nil.2 rfl)
  | cons m ms ih =>
      obtain ⟨m', ms', rfl, hm, hms⟩ := named_cons.1 hms
      unfold survivors Asker.survivors
      refine h.conjoin_bind ha hm hown (fun branch => ?_)
        fun branch b ℓ' branch' hb hab hreached _ => ?_
      · exact (keeps_survivors h.keeps _ _ _ _).bind fun _ => keeps_pure _
      have hown := hreached.carry hown
      have hms := hreached.carry hms
      refine .bind hb (.refl _) (ih hb hown (i + 1) hms)
        (runs_survivors (Q := fun _ => True) h.sound hb.toLawful (named_id.1 hown).1.lt group (i + 1)
          (fun m hm => ((named_ids.1 hms).1 m hm).lt) fun _ _ => trivial)
        (fun _ => keeps_pure _) fun others c ℓc others' hc hbc _ hothers => ?_
      refine .pure hc.tracks (named_append ?_ hothers.named)
      have hbranch := hothers.carry hreached.named
      cases branch with
      | none =>
          obtain rfl := named_none.1 hbranch
          exact named_nil.2 rfl
      | some branch =>
          obtain ⟨branch', rfl, hnamed⟩ := named_some.1 hbranch
          exact named_cons.2 ⟨_, _, rfl, hnamed, named_nil.2 rfl⟩

theorem follows_conjoinAll (h : Guided O ν solve) (ha : Labelled O ν ℓ a) {own own' : SchemaId}
    (hown : Held O ℓ a own own') (place : Pointer) {ms ms' : List SchemaId}
    (hms : Held O ℓ a ms ms') :
    Follows O ν .none ℓ a (conjoinAll solve place own ms)
      fun n => (ν.eval n).conjoinAll place own' ms' := by
  induction ms generalizing ms' own own' a ℓ with
  | nil =>
      obtain rfl := named_nil.1 hms
      exact .pure ha.tracks (named_some.2 ⟨_, rfl, hown⟩)
  | cons m ms ih =>
      obtain ⟨m', ms', rfl, hm, hms⟩ := named_cons.1 hms
      unfold conjoinAll Asker.conjoinAll
      refine h.conjoin_bind ha hown hm (fun next => ?_)
        fun next b ℓ' next' hb hab hreached _ => ?_
      · split
        · exact keeps_conjoinAll h.keeps _ _ _
        · exact keeps_pure _
      cases next with
      | none =>
          obtain rfl := named_none.1 hreached.named
          exact .pure hb.tracks (named_none.2 rfl)
      | some next =>
          obtain ⟨next', rfl, hnext⟩ := named_some.1 hreached.named
          exact ih hb hnext (hreached.carry hms)

end ApiModel.Arena
