/-
  ApiModel.Proofs.Schema.Guided

  Normal forms follow the functions without a memo, and with them the whole recursion. A schema under
  normalization is met again only on the way to a value that would take itself, so a cycle of
  combinators has no value.
-/
import ApiModel.Proofs.Schema.Guidance

namespace ApiModel.Arena

open Mentions (ids rename)

variable {O : Set SchemaId} {ν : Nomenclature} {A B : Allowance} {ℓ ℓ' : Labels} {a b : Arena}
  {solve : Solver} {c c' x x' m : SchemaId} {s s' : Schema}

/-! ## Kinds alone -/

theorem named_kindsAlone (p : Pointer) (ks : KindSet) :
    Held O ℓ a (kindsAlone p ks) (kindsAlone p ks) where
  known _ hc := by cases hc
  eq := rfl

theorem follows_narrowed (h : Guided O ν solve) (ha : Labelled O ν ℓ a) (hc : Held O ℓ a c c')
    (hs : Held O ℓ a s s') (hproper : s.Proper (fun _ => True) a.next)
    (hm : Underway O ν ℓ a m fun _ => False) :
    Follows O ν (.parts m) ℓ a (narrowed solve s c)
      fun n => ν.narrowed (ν.eval n) m s' c' := by
  have hkinds : s'.kinds = s.kinds := by rw [hs.eq]; rfl
  have hpointer : s'.pointer = s.pointer := by rw [hs.eq]; rfl
  unfold narrowed Nomenclature.narrowed
  rw [hkinds, hpointer]
  refine h.normalize_bind ha hc (fun inner => ?_) fun inner b ℓb inner' hb hab _ hrb => ?_
  · split
    · split
      · exact keeps_pure _
      · refine (keeps_store _).bind fun narrowing => ?_
        split
        · exact h.keeps _
        · exact keeps_pure _
    · exact keeps_pure _
  cases inner with
  | none =>
      obtain rfl := named_none.1 hrb.named
      exact .pure hb.tracks (named_none.2 rfl)
  | some inner =>
  obtain ⟨inner', rfl, hinner⟩ := named_some.1 hrb.named
  dsimp only
  cases hks : s.kinds with
  | none => exact .pure hb.tracks (named_some.2 ⟨_, rfl, hinner⟩)
  | some ks =>
  have hmb := hm.carry ha.toWellFormed hb.toWellFormed hab hrb.moves
  refine .bind hb (Allowance.part_within_parts m .narrowing)
    (follows_store hb (named_kindsAlone s.pointer ks) hmb (by rintro (h | h) <;> exact h))
    (runs_store hb.toLawful (storable_kindsAlone s.pointer (hproper.kinds ks hks)))
    (fun narrowing => ?_) fun narrowing d ℓd narrowing' hd hbd _ hrd => ?_
  · split
    · exact h.keeps _
    · exact keeps_pure _
  cases narrowing with
  | none =>
      obtain rfl := named_none.1 hrd.named
      exact .pure hd.tracks (named_none.2 rfl)
  | some narrowing =>
      obtain ⟨narrowing', rfl, hnarrowing⟩ := named_some.1 hrd.named
      exact (h.conjoin s.pointer hd (hrd.carry hinner) hnarrowing).widen (.of_none _)

/-! ## Alternatives -/

/-- What the last part of a normalization makes of the branches that are left. -/
theorem follows_gather (ha : Labelled O ν ℓ a) {own own' : SchemaId} (hown : Held O ℓ a own own')
    {bs bs' : List SchemaId} (hbs : Held O ℓ a bs bs') (hs : Held O ℓ a s s')
    {parts : Part → Prop} (hm : Underway O ν ℓ a m parts) (hwhole : ¬parts .whole) :
    Follows O ν (.part m .whole) ℓ a (match bs with
      | [] => return if s.anyOf.isEmpty && s.oneOf.isEmpty then some own else none
      | [only] => return some only
      | branches => do
        let demands ← Work.view (·.schema own)
        store { demands with pointer := s.pointer, anyOf := branches })
      fun _ => some (ν.gather m s' own' bs') := by
  unfold Nomenclature.gather
  have hpointer : s'.pointer = s.pointer := by rw [hs.eq]; rfl
  match bs, hbs with
  | [], hbs =>
      obtain rfl := named_nil.1 hbs
      dsimp only
      rw [hs.anyOf.isEmpty, hs.oneOf.isEmpty]
      split
      · exact .pure ha.tracks (named_some.2 ⟨_, rfl, hown⟩)
      · exact .pure ha.tracks (named_none.2 rfl)
  | [c], hbs =>
      obtain ⟨c', _, rfl, hc, hnil⟩ := named_cons.1 hbs
      obtain rfl := named_nil.1 hnil
      exact .pure ha.tracks (named_some.2 ⟨_, rfl, hc⟩)
  | c :: d :: bs, hbs =>
      obtain ⟨c', _, rfl, hc, hrest⟩ := named_cons.1 hbs
      obtain ⟨d', bs', rfl, hd, hrest'⟩ := named_cons.1 hrest
      rw [hpointer]
      exact .view_bind (follows_store ha ((ha.schema hown).withAnyOf hbs s.pointer) hm hwhole)

theorem keeps_gather (s : Schema) (own : SchemaId) (bs : List SchemaId) :
    Keeps (match bs with
      | [] => return if s.anyOf.isEmpty && s.oneOf.isEmpty then some own else none
      | [only] => return some only
      | branches => do
        let demands ← Work.view (·.schema own)
        store { demands with pointer := s.pointer, anyOf := branches }) :=
  obeys_gather Change.retains s own bs

/-- What follows on the survivors of the two groups. -/
theorem keeps_branches (hsolve : ∀ task, Keeps (solve task)) (s : Schema) (own : SchemaId)
    (as os : List SchemaId) : Keeps (do
      if !s.oneOf.isEmpty && os.isEmpty then return none
      let branches ←
        if as.isEmpty then pure os
        else if os.isEmpty then pure as
        else cross solve as os (s.pointer.push "anyOf")
      match branches with
      | [] => return if s.anyOf.isEmpty && s.oneOf.isEmpty then some own else none
      | [only] => return some only
      | branches =>
        let demands ← Work.view (·.schema own)
        store { demands with pointer := s.pointer, anyOf := branches }) :=
  obeys_branches Change.retains hsolve s own as os

theorem keeps_withAlternatives (hsolve : ∀ task, Keeps (solve task)) (s : Schema)
    (own : SchemaId) : Keeps (withAlternatives solve s own) :=
  obeys_withAlternatives Change.retains hsolve s own

theorem follows_withAlternatives (h : Guided O ν solve) (ha : Labelled O ν ℓ a)
    {own own' : SchemaId} (hown : Held O ℓ a own own') (hs : Held O ℓ a s s') {parts : Part → Prop}
    (hm : Underway O ν ℓ a m parts) (hwhole : ¬parts .whole) :
    Follows O ν (.part m .whole) ℓ a (withAlternatives solve s own)
      fun n => ν.withAlternatives (ν.eval n) m s' own' := by
  have hpointer : s'.pointer = s.pointer := by rw [hs.eq]; rfl
  unfold withAlternatives Nomenclature.withAlternatives
  rw [hpointer, hs.anyOf.isEmpty, hs.oneOf.isEmpty]
  refine .bind ha (.of_none _) (follows_survivors h ha hown _ 0 hs.anyOf)
    (runs_survivors (Q := fun _ => True) h.sound ha.toLawful (named_id.1 hown).1.lt _ 0
      (fun m hm => ((named_ids.1 hs.anyOf).1 m hm).lt) fun _ _ => trivial) (fun as => ?_)
      fun as b ℓb as' hb hab _ hrb => ?_
  · split
    · exact keeps_pure _
    refine (keeps_survivors h.keeps _ _ _ _).bind fun os => keeps_branches h.keeps s own as os
  have hmb := hm.carry ha.toWellFormed hb.toWellFormed hab hrb.moves
  rw [hrb.named.isEmpty]
  split
  · exact .pure hb.tracks (named_none.2 rfl)
  have hone := (hrb.carry hs).oneOf
  refine .bind hb (.of_none _) (follows_survivors h hb (hrb.carry hown) _ 0 hone)
    (runs_survivors (Q := fun _ => True) h.sound hb.toLawful
      (named_id.1 (hrb.carry hown)).1.lt _ 0 (fun m hm => ((named_ids.1 hone).1 m hm).lt)
      fun _ _ => trivial)
    (fun os => keeps_branches h.keeps s own as os) fun os c ℓc os' hc hbc _ hrc => ?_
  have hmc := hmb.carry hb.toWellFormed hc.toWellFormed hbc hrc.moves
  rw [hrc.named.isEmpty]
  split
  · exact .pure hc.tracks (named_none.2 rfl)
  -- the survivors of one group, of the other, or the pairs of both
  have has := hrc.carry hrb.named
  have hownc := hrc.carry (hrb.carry hown)
  have hsc := hrc.carry (hrb.carry hs)
  have hwholec : ¬((parts .whole ∨ False) ∨ False) := by simpa using hwhole
  dsimp only
  split
  · exact follows_gather hc hownc hrc.named hsc hmc hwholec
  split
  · exact follows_gather hc hownc has hsc hmc hwholec
  refine .bind hc (.of_none _) (follows_cross h hc _ has hrc.named)
    (runs_cross (Q := fun _ => True) h.sound hc.toLawful
      (fun l hl => ((named_ids.1 has).1 l hl).lt) (fun r hr => ((named_ids.1 hrc.named).1 r hr).lt) _
      fun _ => trivial) (fun bs => keeps_gather s own bs)
    fun bs d ℓd bs' hd hcd _ hrd => ?_
  have hmd := hmc.carry hc.toWellFormed hd.toWellFormed hcd hrd.moves
  exact follows_gather hd (hrd.carry hownc) hrd.named (hrd.carry hsc) hmd
    (by simpa [Allowance.none] using hwhole)

/-! ## Normal forms -/

theorem named_baseOf (hs : Held O ℓ a s s') : Held O ℓ a (baseOf s) (baseOf s') where
  known c hc := by
    refine hs.known c ?_
    simp only [ids, Schema.links, Schema.members, baseOf, Schema.withoutCombinators, extraSchema?,
        List.append_nil] at hc ⊢
    exact List.mem_append_left _ hc
  eq := by
    rw [hs.eq]
    rfl

theorem follows_normalForm (h : Guided O ν solve) (ha : Labelled O ν ℓ a) (hx : Held O ℓ a x x')
    (hm : Underway O ν ℓ a x' fun _ => False) :
    Follows O ν (.parts x') ℓ a (normalForm solve x) fun n => ν.normalForm (ν.eval n) x' := by
  have hs := ha.schema hx
  have hproper := ha.proper x
  have hpointer : (ν.content x').pointer = (a.schema x).pointer := by rw [hs.eq]; rfl
  have hsole : Held O ℓ a (a.schema x).soleChild? (ν.content x').soleChild? := by
    refine ⟨fun c hc => ?_, by rw [hs.eq]; exact Schema.soleChild?_rename⟩
    refine hs.known c (Schema.mem_links_of_member (Schema.mem_members_of_soleChild? ?_))
    simpa [ids, eq_comm] using hc
  unfold normalForm Nomenclature.normalForm
  refine .view_bind ?_
  dsimp only
  rw [hs.isBottom, hpointer]
  split
  · exact .pure ha.tracks (named_none.2 rfl)
  cases hc : (a.schema x).soleChild? <;> rw [hc] at hsole
  case some c =>
      obtain ⟨c', hc', hnamed⟩ := named_some.1 hsole
      rw [hc']
      exact follows_narrowed h ha hnamed hs hproper hm
  case none =>
  rw [named_none.1 hsole]
  -- no sole child: the demands besides the combinators, the members of `allOf`, the alternatives
  have hsteps := runs_store (Q := fun _ => True) ha.toLawful (storable_baseOf hproper)
  refine .bind ha (Allowance.part_within_parts x' .base)
    (follows_store ha (named_baseOf hs) hm id) hsteps (fun start => ?_)
    fun start b ℓb start' hb hab hstored hrb => ?_
  · split
    · refine (keeps_conjoinAll h.keeps _ _ _).bind fun own => ?_
      split
      · exact keeps_withAlternatives h.keeps _ _
      · exact keeps_pure _
    · exact keeps_pure _
  cases start with
  | none =>
      obtain rfl := named_none.1 hrb.named
      exact .pure hb.tracks (named_none.2 rfl)
  | some start =>
  obtain ⟨start', rfl, hstart⟩ := named_some.1 hrb.named
  have hmb := hm.carry ha.toWellFormed hb.toWellFormed hab hrb.moves
  have hsb := hrb.carry hs
  dsimp only
  refine .bind hb (.of_none _) (follows_conjoinAll h hb hstart _ hsb.allOf)
    (runs_conjoinAll (Q := fun _ => True) h.sound hb.toLawful hstored.isForm _
      (fun m hm => ((named_ids.1 hsb.allOf).1 m hm).lt) fun _ _ => trivial) (fun own => ?_)
    fun own c ℓc own' hc hbc _ hrc => ?_
  · split
    · exact keeps_withAlternatives h.keeps _ _
    · exact keeps_pure _
  cases own with
  | none =>
      obtain rfl := named_none.1 hrc.named
      exact .pure hc.tracks (named_none.2 rfl)
  | some own =>
  obtain ⟨own', rfl, hown⟩ := named_some.1 hrc.named
  have hmc := hmb.carry hb.toWellFormed hc.toWellFormed hbc hrc.moves
  refine (follows_withAlternatives h hc hown (hrc.carry hsb) hmc ?_).widen
    (Allowance.part_within_parts x' .whole)
  simp [Allowance.none, Allowance.part]

/-! ## The memo of normal forms -/

theorem Labelled.not_isForm (ha : Labelled O ν ℓ a) (hx : Held O ℓ a x x')
    (hform : ¬a.IsForm x) : ¬ν.IsForm x' := by
  obtain ⟨hlt, rfl⟩ := named_id.1 hx
  exact fun h => hform ((ha.tracks.form x hlt).2 h)

/-- The normal form of a schema that has none in the memo takes that of its contents. -/
theorem Nomenclature.needs_normalForm (ν : Nomenclature) (hx : ¬ν.IsForm x') :
    Needs (fun n => ν.eval n (.normalize x')) fun n => ν.normalForm (ν.eval n) x' := by
  intro n hn
  cases n with
  | zero => cases hn
  | succ n =>
      refine ⟨n, Nat.lt_succ_self n, ?_⟩
      dsimp only
      rwa [← ν.eval_normalize hx n]

theorem underway_enter (ha : Labelled O ν ℓ a) (hx : Held O ℓ a x x')
    (hnone : a.progress.get? x = none) : Underway O ν ℓ (a.enter x) x' fun _ => False := by
  obtain ⟨hinner, rfl⟩ := named_id.1 hx
  refine ⟨⟨x, inner_enter.2 hinner, rfl, by simp [progress_enter]⟩, fun i part t hi ht => ?_⟩
  obtain hlt' | ⟨-, hlost | ⟨j, hj, hjx, hp⟩⟩ := ha.tracks.own i _ part _ t hi ht
  · exact absurd hlt' (Nat.lt_irrefl _)
  · exact hlost
  · exact hp (ha.tracks.inj j x hj.lt hinner.lt hjx ▸ hnone)

/-- What holds of a normal form while its schema is still marked holds once that is settled. -/
theorem Reached.settle {r r' : Option SchemaId} (ha : Tracks O ν ℓ a) (hx : Held O ℓ a x x')
    (hnone : a.progress.get? x = none) (hform : ¬ν.IsForm x')
    (h : Reached O ν (.parts x') ℓ (a.enter x) (fun n => ν.normalForm (ν.eval n) x') r b ℓ' r')
    (hprogress : b.progress.get? x = some .inProgress) (hr : ∀ n, r = some n → b.IsForm n) :
    Reached O ν .none ℓ a (fun n => ν.eval n (.normalize x')) r (Arena.settle x (.ok r) b) ℓ' r' := by
  obtain ⟨hinner, rfl⟩ := named_id.1 hx
  have hval : Settles (fun n => ν.eval n (.normalize (ℓ x))) r' :=
    settles_succ (ν.eval_normalize hform) rfl h.settles
  have hsettle := settle_eq x (.ok r) b
  have hnext : (Arena.settle x (.ok r) b).next = b.next := by rw [hsettle]; rfl
  refine ⟨⟨⟨h.moves.ext, fun i hle hi => h.moves.form i hle (hnext ▸ hi)⟩, ?_, ?_⟩,
    fun i hi => inner_settle.2 (h.inner i (inner_enter.2 hi)), ?_,
    ⟨fun i hi => inner_settle.2 (h.named.known i hi), h.named.eq⟩, hval⟩
  · -- what is stored is made of `x`, which had not been started, or of what has not been either
    intro i m part k t hle hi ht
    refine .inr fun j hj hjm => ?_
    rcases h.moves.own i m part k t hle (hnext ▸ hi) ht with rfl | hfresh
    · exact ha.inj j x hj hinner.lt hjm ▸ hnone
    · have := hfresh j hj hjm
      rw [progress_enter] at this
      split at this
      · cases this
      · exact this
  · intro u v p hmiss hhit
    rw [hsettle] at hhit
    exact .inr (needs_succ (ν.eval_normalize hform) rfl
      ((h.moves.key u v p hmiss hhit).resolve_left id))
  · refine h.tracks.settle hprogress hr fun _ => ?_
    rw [h.moves.ext x hinner.lt, show r.map ℓ' = _ from h.named.eq.symm]
    exact hval

/-- What takes the normal form of `x` while that is worked out has no value, or none without that of
    another schema under normalization. -/
theorem blocked_of_enter (hx : Held O ℓ a x x')
    (h : Blocked O ν ℓ (a.enter x) fun n => ν.normalForm (ν.eval n) x') :
    Blocked O ν ℓ a fun n => ν.normalForm (ν.eval n) x' := by
  obtain ⟨-, rfl⟩ := named_id.1 hx
  rcases h with h | ⟨z, hinner, hz, hneeds⟩
  · exact .inl h
  rw [progress_enter] at hz
  split at hz
  · next heq => exact .inl (Needs.never (heq ▸ hneeds))
  · exact .inr ⟨z, inner_enter.1 hinner, hz, hneeds⟩

/-- The normal form of a schema that has none yet is blocked with that of its contents. -/
theorem Blocked.normalize (hform : ¬ν.IsForm x')
    (h : Blocked O ν ℓ a fun n => ν.normalForm (ν.eval n) x') :
    Blocked O ν ℓ a fun n => ν.eval n (.normalize x') := by
  refine h.imp (fun hnever n => ?_) fun ⟨z, hinner, hz, hneeds⟩ =>
    ⟨z, hinner, hz, needs_succ (ν.eval_normalize hform) rfl hneeds⟩
  cases n with
  | zero => rfl
  | succ n => exact (ν.eval_normalize hform n).trans (hnever n)

/-- What is given up with `x` is so because `x` is. -/
theorem Blocked.leave {α : Type} {cx : Nat → Option α} (hx : Held O ℓ a x x')
    (hself : Blocked O ν ℓ a fun n => ν.normalForm (ν.eval n) x')
    (h : Blocked O ν ℓ (a.enter x) cx) : Blocked O ν ℓ a cx := by
  obtain ⟨-, rfl⟩ := named_id.1 hx
  rcases h with h | ⟨z, hinner, hz, hneeds⟩
  · exact .inl h
  rw [progress_enter] at hz
  split at hz
  · next heq =>
      subst heq
      rcases hself with hnever | ⟨w, hinner', hw, hneeds'⟩
      · exact .inl (hneeds.never_of hnever)
      · exact .inr ⟨w, hinner', hw, hneeds.trans hneeds'⟩
  · exact .inr ⟨z, inner_enter.1 hinner, hz, hneeds⟩

/-- A normalization that is started now: the schema is under normalization until it has its normal
    form. -/
theorem follows_started (h : Guided O ν solve) (ha : Labelled O ν ℓ a) (hx : Held O ℓ a x x')
    (hnone : a.progress.get? x = none) :
    Follows O ν .none ℓ a (do
      Work.modify fun a => { a with
        progress := a.progress.insert x .inProgress, pending := a.pending ++ [x] }
      Work.thenAlways (normalForm solve x) (settle x)) fun n => ν.eval n (.normalize x') := by
  have hinner := (named_id.1 hx).1
  have hform : ¬ν.IsForm x' := ha.not_isForm hx (by simp [IsForm, hnone])
  have henter : Labelled O ν ℓ (a.enter x) :=
    ha.after (lawful_enter ha.toLawful hinner.lt hnone) (grows_enter ha.toWellFormed hnone)
      (ha.tracks.enter hnone)
  have hxe : Held O ℓ (a.enter x) x x' := ⟨fun i hi => inner_enter.2 (hx.known i hi), hx.eq⟩
  have hfollows := follows_normalForm h henter hxe (underway_enter ha hx hnone)
  have hruns : Steps (normalForm solve x) (a.enter x) fun r t =>
      FormJoined Law.traced t ((a.enter x).schema x) r :=
    runs_normalForm h.sound henter.toLawful fun _ _ => trivial
  refine Work.ends_bind.2 (Work.ends_thenAlways.2 ?_)
  change (normalForm solve x).Ends (a.enter x) _ _
  refine Work.Ends.mono (Work.Ends.and hruns hfollows) ?_ ?_
  · rintro r b ⟨⟨⟨hb, hab⟩, hr⟩, hfollows⟩ hp
    have hpath : b.pending = a.pending ++ [x] := hab.pending
    obtain ⟨ℓ', r', hreached⟩ := hfollows (promptBut_settle.1 hp)
    exact ⟨ℓ', r', hreached.settle ha.tracks hx hnone hform (hb.inProgress hpath) fun n hn =>
      FormJoined.isForm hb.toWellFormed (hn ▸ hr)⟩
  · rintro e b ⟨⟨hb, hab⟩, hfollows⟩ hp
    have hpath : b.pending = a.pending ++ [x] := hab.pending
    refine (hfollows (promptBut_settle.1 hp)).imp_right ?_
    rintro ⟨hblocked, ℓ', hwreck⟩
    have hself := blocked_of_enter hx hblocked
    refine ⟨hself.normalize hform, ℓ', ⟨hwreck.ext, hwreck.form⟩, ?_⟩
    refine (hwreck.tracks.settle_error (hb.inProgress hpath) e).mono (fun _ _ _ => id) ?_
    rintro m (hm | ⟨-, rfl⟩)
    · exact Blocked.leave hx hself hm
    · rw [hwreck.ext x hinner.lt, ← (named_id.1 hx).2]
      exact hself

/-- Each step takes the tasks that come up to a solver. -/
theorem follows_normalize (h : Guided O ν solve) (ha : Labelled O ν ℓ a) (hx : Held O ℓ a x x') :
    Follows O ν .none ℓ a (normalize solve x) fun n => ν.eval n (.normalize x') := by
  obtain ⟨hinner, rfl⟩ := named_id.1 hx
  unfold normalize
  refine .view_bind ?_
  split
  · next r hr =>
      refine .known ha.tracks ⟨fun i hi => ?_, rfl⟩ (ha.tracks.done x r hr hinner)
      cases r with
      | none => simp [ids] at hi
      | some n =>
          rw [Mentions.mem_ids_some.1 hi]
          exact ha.inner_of_leads (ha.isForm_lt (ha.form x n hr)) hinner hinner fun z hz =>
            .inl (ha.forms x _ hr n rfl z hz)
  · next hr =>
      have hform : ¬a.IsForm x := by simp [IsForm, hr]
      exact .view_bind
        (.fault ha.tracks (.inr ⟨x, hinner, hr, ν.needs_normalForm (ha.not_isForm hx hform)⟩))
  · next hr => exact follows_started h ha hx hr

/-! ## The closed recursion -/

/-- Every supply of nested calls makes a solver that follows the answers on names. -/
theorem guided_solve (ν : Nomenclature) (calls : Nat) : Guided O ν (Arena.solve calls) := by
  induction calls with
  | zero =>
      exact ⟨sound_solve upheld_provenance 0, keeps_solve 0, fun _ _ _ => .inl rfl,
        fun _ _ _ _ _ => .inl rfl⟩
  | succ calls ih =>
      exact ⟨sound_solve upheld_provenance (calls + 1), keeps_solve (calls + 1),
        fun ha hx => follows_normalize ih ha hx,
        fun place ha hx hy => follows_conjoin ih ha hx hy place⟩

end ApiModel.Arena
