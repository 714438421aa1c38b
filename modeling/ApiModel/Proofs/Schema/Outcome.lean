/-
  ApiModel.Proofs.Schema.Outcome

  What the steps of the algebra come to, told about the arena that they leave. Each relation has one
  constructor for each way in which a step can end, and speaks of the answers to the tasks in
  between through a law, or through any weaker one; no relation mentions a computation. A relation
  that holds of an arena holds of every later one, so what several steps found can be put together at
  the end.
-/
import ApiModel.Proofs.Schema.Law

namespace ApiModel.Arena

/-- Child schemas of two schemas that speak for the same part of a value. -/
inductive Facing (s₁ s₂ : Schema) : SchemaId → SchemaId → Prop
  | items {c d : SchemaId} (hc : s₁.items = some c) (hd : s₂.items = some d) : Facing s₁ s₂ c d
  | property {k : String} {c d : SchemaId} (hc : s₁.properties.get? k = some c)
      (hd : s₂.properties.get? k = some d) : Facing s₁ s₂ c d
  | leftExtra {k : String} {c d : SchemaId} (hc : s₁.properties.get? k = some c)
      (hk : s₂.properties.get? k = none) (hd : s₂.extras = some (.matching d)) : Facing s₁ s₂ c d
  | rightExtra {k : String} {c d : SchemaId} (hk : s₁.properties.get? k = none)
      (hc : s₁.extras = some (.matching c)) (hd : s₂.properties.get? k = some d) : Facing s₁ s₂ c d
  | extras {c d : SchemaId} (hc : s₁.extras = some (.matching c))
      (hd : s₂.extras = some (.matching d)) : Facing s₁ s₂ c d

theorem Facing.mem_parts {s₁ s₂ : Schema} {c d : SchemaId} (h : Facing s₁ s₂ c d) :
    c ∈ s₁.parts ∧ d ∈ s₂.parts := by
  cases h with
  | items hc hd => exact ⟨Schema.mem_parts_of_items hc, Schema.mem_parts_of_items hd⟩
  | property hc hd => exact ⟨Schema.mem_parts_of_property hc, Schema.mem_parts_of_property hd⟩
  | leftExtra hc _ hd => exact ⟨Schema.mem_parts_of_property hc, Schema.mem_parts_of_extras hd⟩
  | rightExtra _ hc hd => exact ⟨Schema.mem_parts_of_extras hc, Schema.mem_parts_of_property hd⟩
  | extras hc hd => exact ⟨Schema.mem_parts_of_extras hc, Schema.mem_parts_of_extras hd⟩

theorem Facing.mem_links {s₁ s₂ : Schema} {c d : SchemaId} (h : Facing s₁ s₂ c d) :
    c ∈ s₁.links ∧ d ∈ s₂.links :=
  h.mem_parts.imp Schema.mem_links_of_part Schema.mem_links_of_part

section Relations

variable {P : Json → Prop} (L : Law P) (t : Arena)

/-- What the conjunction of two schemas comes to, by way of their normal forms. That nothing matches
    two bare forms is on record. -/
inductive Joined (x y : SchemaId) : Option SchemaId → Prop
  | left (hx : t.progress.get? x = some (.done none)) : Joined x y none
  | right {nx : SchemaId} (hx : t.progress.get? x = some (.done (some nx)))
      (hy : t.progress.get? y = some (.done none)) : Joined x y none
  | forms {nx ny : SchemaId} {r : Option SchemaId}
      (hx : t.progress.get? x = some (.done (some nx)))
      (hy : t.progress.get? y = some (.done (some ny))) (hr : ∀ n, r = some n → t.IsForm n)
      (hrecord : r = none → t.Bare nx → t.Bare ny →
        nx ≠ ny ∧ ∃ p, t.conjunctions.get? (nx, ny, p) = some none)
      (hlaw : L.both t nx ny r) : Joined x y r

/-- What the conjunction of two child schemas comes to. -/
inductive ChildJoined (x y : SchemaId) : Option SchemaId → Prop
  | same (h : x = y) : ChildJoined x y (some x)
  | single {d : SchemaId}
      (hd : ((t.operandsOf x).union (t.operandsOf y)).elements = [d]) : ChildJoined x y (some d)
  | putOff {d : SchemaId}
      (hd : t.operands.get? d = some ((t.operandsOf x).union (t.operandsOf y))) :
      ChildJoined x y (some d)
  | unmatched {fx fy : Option SchemaId} (hne : x ≠ y)
      (hx : t.progress.get? x = some (.done fx)) (hy : t.progress.get? y = some (.done fy))
      (h : fx = none ∨ fy = none) : ChildJoined x y none
  /-- A result that is the form of an operand is given as that operand. -/
  | joined {nx ny : SchemaId} {r : Option SchemaId} (hne : x ≠ y)
      (hx : t.progress.get? x = some (.done (some nx)))
      (hy : t.progress.get? y = some (.done (some ny))) (hr : Joined L t nx ny r) :
      ChildJoined x y (r.map fun n => if n = nx then x else if n = ny then y else n)

/-- What the demands on items come to. -/
inductive ItemsJoined (a b : Schema) : Option (Option SchemaId) → Prop
  | both {x y : SchemaId} {z : Option SchemaId} (ha : a.items = some x) (hb : b.items = some y)
      (hz : ChildJoined L t x y z) : ItemsJoined a b (z.map some)
  | one (h : a.items = none ∨ b.items = none) : ItemsJoined a b (some (a.items.or b.items))

/-- The demands on unnamed properties are none. -/
def Unrestricted (e : Option Extras) : Prop := e = none ∨ e = some (.allowed true)

/-- What the demands on unnamed properties come to. -/
inductive ExtrasJoined (a b : Schema) : Option Extras → Prop
  | left (ha : Unrestricted a.extras) : ExtrasJoined a b b.extras
  | right (hb : Unrestricted b.extras) : ExtrasJoined a b a.extras
  | closed (h : isClosed a = true ∨ isClosed b = true) : ExtrasJoined a b (some (.allowed false))
  | both {x y : SchemaId} {z : Option SchemaId} (ha : a.extras = some (.matching x))
      (hb : b.extras = some (.matching y)) (hz : ChildJoined L t x y z) :
      ExtrasJoined a b (some ((z.map Extras.matching).getD (.allowed false)))

/-- What the demands on one property come to. -/
inductive PropertyJoined (a b : Schema) (key : String) : Option SchemaId → Prop
  | both {x y : SchemaId} {r : Option SchemaId} (ha : a.properties.get? key = some x)
      (hb : b.properties.get? key = some y) (hr : ChildJoined L t x y r) :
      PropertyJoined a b key r
  | leftExtra {x e : SchemaId} {r : Option SchemaId} (ha : a.properties.get? key = some x)
      (hb : b.properties.get? key = none) (he : b.extras = some (.matching e))
      (hr : ChildJoined L t x e r) : PropertyJoined a b key r
  | left {x : SchemaId} (ha : a.properties.get? key = some x)
      (hb : b.properties.get? key = none) (he : extraSchema? b = none) :
      PropertyJoined a b key (some x)
  | rightExtra {e y : SchemaId} {r : Option SchemaId} (ha : a.properties.get? key = none)
      (hb : b.properties.get? key = some y) (he : a.extras = some (.matching e))
      (hr : ChildJoined L t e y r) : PropertyJoined a b key r
  | right {y : SchemaId} (ha : a.properties.get? key = none)
      (hb : b.properties.get? key = some y) (he : extraSchema? a = none) :
      PropertyJoined a b key (some y)

/-- The schema `c` can be a part of a conjunction: it is a part of one side, or what facing child
    schemas come to. -/
inductive PartJoined (a b : Schema) (c : SchemaId) : Prop
  | left (h : c ∈ a.parts) : PartJoined a b c
  | right (h : c ∈ b.parts) : PartJoined a b c
  | both {x y : SchemaId} (hf : Facing a b x y) (hj : ChildJoined L t x y (some c)) :
      PartJoined a b c

/-- What the properties with some names come to, added to those in `merged`. -/
inductive PropertiesJoined (a b : Schema) (keys : List String) (merged : Dict String SchemaId) :
    Option (Dict String SchemaId) → Prop
  | clash {k : String} (hk : k ∈ keys) (h : PropertyJoined L t a b k none) :
      PropertiesJoined a b keys merged none
  | all {d : Dict String SchemaId} (hd : merged.keys.Nodup → d.keys.Nodup)
      (hin : ∀ k ∈ keys, ∃ c, d.get? k = some c ∧ PropertyJoined L t a b k (some c))
      (hout : ∀ k, k ∉ keys → d.get? k = merged.get? k) :
      PropertiesJoined a b keys merged (some d)

/-- The branches of one list conjoined with those of another. -/
structure Crossed (left right branches : List SchemaId) : Prop where
  sound : ∀ c ∈ branches, ∃ l ∈ left, ∃ r ∈ right, Joined L t l r (some c)
  complete : ∀ l ∈ left, ∀ r ∈ right, ∃ o, Joined L t l r o ∧ ∀ c, o = some c → c ∈ branches

/-- What comes of storing a schema as a normal form. -/
inductive Stored (s : Schema) : Option SchemaId → Prop
  | bottom (h : (trimValues s).isBottom = true) : Stored s none
  | stored {n : SchemaId} (h : (trimValues s).isBottom = false) (hn : t.IsForm n)
      (hs : t.schema n = trimValues s) : Stored s (some n)

/-- The value of a keyword on which both sides agree. -/
def Agreed {α : Type} [BEq α] (x y z : Option α) : Prop :=
  z = x.or y ∧ ∀ v w, x = some v → y = some w → (v == w) = true

/-- The demands of a conjunction that do not concern child schemas. -/
def KeywordsJoined (a b out : Schema) : Prop :=
  ∃ place m p f, out = joinKeywords a b place m p f ∧ Agreed a.multipleOf b.multipleOf m ∧
    Agreed a.pattern b.pattern p ∧ Agreed a.format b.format f

/-- The demands that the conjunction of two normal forms makes itself. -/
inductive OwnJoined (a b : Schema) : Schema → Prop
  | mk {k : Schema} {i : Option SchemaId} {e : Option Extras} {d : Dict String SchemaId}
      (hk : KeywordsJoined a b k) (hi : ItemsJoined L t a b (some i))
      (he : ExtrasJoined L t a b e)
      (hd : PropertiesJoined L t a b (mergedKeys a b) .empty (some d)) :
      OwnJoined a b { k with items := i, extras := e, properties := d }

/-- What comes of a conjunction with these demands: an operand where they are the same, the first
    one before the second. -/
inductive Reused (x y : SchemaId) (out : Schema) : Option SchemaId → Prop
  | left (h : out.sameDemands (t.schema x) = true) : Reused x y out (some x)
  | right (h : out.sameDemands (t.schema y) = true)
      (hx : out.sameDemands (t.schema x) = false) : Reused x y out (some y)
  | stored {r : Option SchemaId} (h : Stored t out r)
      (hx : out.sameDemands (t.schema x) = false) : Reused x y out r

/-- The alternatives of a normal form; without any it counts as its own only one. -/
def sides (x : SchemaId) : List SchemaId :=
  if (t.schema x).anyOf.isEmpty then [x] else (t.schema x).anyOf

/-- What the conjunction of two normal forms comes to. -/
inductive BothJoined (x y : SchemaId) : Option SchemaId → Prop
  | rightFree (h : (t.schema y).isUnconstrained = true) : BothJoined x y (some x)
  | leftFree (h : (t.schema x).isUnconstrained = true)
      (hy : (t.schema y).isUnconstrained = false) : BothJoined x y (some y)
  | itemsClash (h : ItemsJoined L t (t.schema x) (t.schema y) none)
      (hfreey : (t.schema y).isUnconstrained = false) : BothJoined x y none
  | propertyClash {k : String} (hk : k ∈ mergedKeys (t.schema x) (t.schema y))
      (h : PropertyJoined L t (t.schema x) (t.schema y) k none)
      (hfreey : (t.schema y).isUnconstrained = false) : BothJoined x y none
  | plain {own : Schema} {r : Option SchemaId}
      (hown : OwnJoined L t (t.schema x) (t.schema y) own) (hx : (t.schema x).anyOf = [])
      (hy : (t.schema y).anyOf = []) (hr : Reused t x y own r)
      (hfreey : (t.schema y).isUnconstrained = false)
      (hfreex : (t.schema x).isUnconstrained = false) : BothJoined x y r
  | noBranch (hany : (t.schema x).anyOf ≠ [] ∨ (t.schema y).anyOf ≠ [])
      (h : Crossed L t (t.sides x) (t.sides y) [])
      (hfreey : (t.schema y).isUnconstrained = false) : BothJoined x y none
  | oneBranch {own : Schema} {c : SchemaId}
      (hany : (t.schema x).anyOf ≠ [] ∨ (t.schema y).anyOf ≠ [])
      (h : Crossed L t (t.sides x) (t.sides y) [c])
      (hfreey : (t.schema y).isUnconstrained = false)
      (hown : OwnJoined L t (t.schema x) (t.schema y) own) : BothJoined x y (some c)
  | branches {own : Schema} {bs : List SchemaId} {r : Option SchemaId}
      (hany : (t.schema x).anyOf ≠ [] ∨ (t.schema y).anyOf ≠ [])
      (hown : OwnJoined L t (t.schema x) (t.schema y) own)
      (h : Crossed L t (t.sides x) (t.sides y) bs) (hbs : 2 ≤ bs.length)
      (hr : Reused t x y { own with anyOf := bs } r)
      (hfreey : (t.schema y).isUnconstrained = false) : BothJoined x y r

/-- What a normal form conjoined with some schemas, one after the other, comes to. -/
inductive AllJoined : SchemaId → List SchemaId → Option SchemaId → Prop
  | nil {own : SchemaId} : AllJoined own [] (some own)
  | clash {own m : SchemaId} {ms : List SchemaId} (h : Joined L t own m none) :
      AllJoined own (m :: ms) none
  | cons {own m n : SchemaId} {ms : List SchemaId} {r : Option SchemaId}
      (h : Joined L t own m (some n)) (hr : AllJoined n ms r) : AllJoined own (m :: ms) r

/-- What the branches of a schema come to, when `own` stands for its own demands. -/
inductive Gathered (s : Schema) (own : SchemaId) (bs : List SchemaId) : Option SchemaId → Prop
  | none (h : bs = []) : Gathered s own bs none
  | one {c : SchemaId} (h : bs = [c]) : Gathered s own bs (some c)
  | many {r : Option SchemaId} (h : 2 ≤ bs.length)
      (hr : Stored t { t.schema own with pointer := s.pointer, anyOf := bs } r) :
      Gathered s own bs r

/-- What the alternatives of a schema come to, when `own` stands for its other demands. -/
inductive AlternativesJoined (s : Schema) (own : SchemaId) : Option SchemaId → Prop
  | neither (ha : s.anyOf = []) (ho : s.oneOf = []) : AlternativesJoined s own (some own)
  | anyClash (ha : s.anyOf ≠ []) (h : Crossed L t s.anyOf [own] []) :
      AlternativesJoined s own none
  | oneClash (ho : s.oneOf ≠ []) (h : Crossed L t s.oneOf [own] []) :
      AlternativesJoined s own none
  | any {bs : List SchemaId} {r : Option SchemaId} (ha : s.anyOf ≠ []) (ho : s.oneOf = [])
      (h : Crossed L t s.anyOf [own] bs) (hr : Gathered t s own bs r) :
      AlternativesJoined s own r
  | one {bs : List SchemaId} {r : Option SchemaId} (ha : s.anyOf = []) (ho : s.oneOf ≠ [])
      (h : Crossed L t s.oneOf [own] bs) (hr : Gathered t s own bs r) :
      AlternativesJoined s own r
  | both {as os bs : List SchemaId} {r : Option SchemaId} (ha : s.anyOf ≠ [])
      (ho : s.oneOf ≠ []) (has : Crossed L t s.anyOf [own] as) (hos : Crossed L t s.oneOf [own] os)
      (h : Crossed L t as os bs) (hr : Gathered t s own bs r) : AlternativesJoined s own r

/-- The demands of a schema without its combinators, as a normal form has them. -/
def baseOf (s : Schema) : Schema :=
  { s.withoutCombinators with kinds := some (s.kinds.getD .full) }

/-- The kinds alone, as a schema of their own. -/
def kindsAlone (p : Pointer) (ks : KindSet) : Schema := { Schema.blank p with kinds := some ks }

/-- What the normal form of a schema that only narrows the kinds of `c` comes to. -/
inductive Narrowed (s : Schema) (c : SchemaId) : Option SchemaId → Prop
  | unmatched (h : t.progress.get? c = some (.done none)) : Narrowed s c none
  | anyKind {n : SchemaId} (h : t.progress.get? c = some (.done (some n))) (hk : s.kinds = none) :
      Narrowed s c (some n)
  | noKind {n : SchemaId} {ks : KindSet} (h : t.progress.get? c = some (.done (some n)))
      (hk : s.kinds = some ks) (hs : Stored t (kindsAlone s.pointer ks) none) : Narrowed s c none
  | kinds {n m : SchemaId} {ks : KindSet} {r : Option SchemaId}
      (h : t.progress.get? c = some (.done (some n))) (hk : s.kinds = some ks)
      (hs : Stored t (kindsAlone s.pointer ks) (some m)) (hr : Joined L t n m r) : Narrowed s c r

/-- What the normal form of a schema comes to. -/
inductive FormJoined (s : Schema) : Option SchemaId → Prop
  | bottom (h : s.isBottom = true) : FormJoined s none
  | narrowed {c : SchemaId} {r : Option SchemaId} (hc : s.soleChild? = some c)
      (hr : Narrowed L t s c r) : FormJoined s r
  | noBase (hc : s.soleChild? = none) (h : Stored t (baseOf s) none) : FormJoined s none
  | allClash {base : SchemaId} (hc : s.soleChild? = none) (h : Stored t (baseOf s) (some base))
      (hall : AllJoined L t base s.allOf none) : FormJoined s none
  | alternatives {base own : SchemaId} {r : Option SchemaId} (hc : s.soleChild? = none)
      (h : Stored t (baseOf s) (some base)) (hall : AllJoined L t base s.allOf (some own))
      (hr : AlternativesJoined L t s own r) : FormJoined s r

end Relations

/-! ## Weaker laws -/

section Weaker

variable {P : Json → Prop} {L L' : Law P} (hL : L.Entails L') {t : Arena} {x y : SchemaId}
  {s s₁ s₂ : Schema} {r : Option SchemaId}
include hL

theorem Lawful.imp (h : t.Lawful L) : t.Lawful L' where
  toWellFormed := h.toWellFormed
  forms id r hr := hL.form (h.forms id r hr)
  boths x y p r hr := hL.both (h.boths x y p r hr)

theorem Joined.imp (h : Joined L t x y r) : Joined L' t x y r := by
  cases h with
  | left hx => exact .left hx
  | right hx hy => exact .right hx hy
  | forms hx hy hr hrecord hlaw => exact .forms hx hy hr hrecord (hL.both hlaw)

theorem ChildJoined.imp (h : ChildJoined L t x y r) : ChildJoined L' t x y r := by
  cases h with
  | same heq => exact .same heq
  | single hd => exact .single hd
  | putOff hd => exact .putOff hd
  | unmatched hne hx hy hnone => exact .unmatched hne hx hy hnone
  | joined hne hx hy hr => exact .joined hne hx hy (hr.imp hL)

theorem ItemsJoined.imp {r : Option (Option SchemaId)} (h : ItemsJoined L t s₁ s₂ r) :
    ItemsJoined L' t s₁ s₂ r := by
  cases h with
  | both hx hy hz => exact .both hx hy (hz.imp hL)
  | one hone => exact .one hone

theorem ExtrasJoined.imp {r : Option Extras} (h : ExtrasJoined L t s₁ s₂ r) :
    ExtrasJoined L' t s₁ s₂ r := by
  cases h with
  | left hu => exact .left hu
  | right hu => exact .right hu
  | closed hc => exact .closed hc
  | both hx hy hz => exact .both hx hy (hz.imp hL)

theorem PropertyJoined.imp {k : String} (h : PropertyJoined L t s₁ s₂ k r) :
    PropertyJoined L' t s₁ s₂ k r := by
  cases h with
  | both hx hy hr => exact .both hx hy (hr.imp hL)
  | leftExtra hx hy he hr => exact .leftExtra hx hy he (hr.imp hL)
  | left hx hy he => exact .left hx hy he
  | rightExtra hx hy he hr => exact .rightExtra hx hy he (hr.imp hL)
  | right hx hy he => exact .right hx hy he

theorem PropertiesJoined.imp {keys : List String} {m : Dict String SchemaId}
    {r : Option (Dict String SchemaId)} (h : PropertiesJoined L t s₁ s₂ keys m r) :
    PropertiesJoined L' t s₁ s₂ keys m r := by
  cases h with
  | clash hk hp => exact .clash hk (hp.imp hL)
  | all hd hin hout =>
      refine .all hd (fun k hk => ?_) hout
      obtain ⟨c, hc, hp⟩ := hin k hk
      exact ⟨c, hc, hp.imp hL⟩

theorem OwnJoined.imp {own : Schema} (h : OwnJoined L t s₁ s₂ own) : OwnJoined L' t s₁ s₂ own := by
  cases h with
  | mk hk hi he hd => exact .mk hk (hi.imp hL) (he.imp hL) (hd.imp hL)

theorem Crossed.imp {left right bs : List SchemaId} (h : Crossed L t left right bs) :
    Crossed L' t left right bs where
  sound c hc := by
    obtain ⟨l, hl, r, hr, hlr⟩ := h.sound c hc
    exact ⟨l, hl, r, hr, hlr.imp hL⟩
  complete l hl r hr := by
    obtain ⟨o, ho, hmem⟩ := h.complete l hl r hr
    exact ⟨o, ho.imp hL, hmem⟩

theorem BothJoined.imp (h : BothJoined L t x y r) : BothJoined L' t x y r := by
  cases h with
  | rightFree hfree => exact .rightFree hfree
  | leftFree hfree hy => exact .leftFree hfree hy
  | itemsClash hi hfreey => exact .itemsClash (hi.imp hL) hfreey
  | propertyClash hk hc hfreey => exact .propertyClash hk (hc.imp hL) hfreey
  | plain hown hanyx hanyy hr hfreey hfreex =>
      exact .plain (hown.imp hL) hanyx hanyy hr hfreey hfreex
  | noBranch hany hbs hfreey => exact .noBranch hany (hbs.imp hL) hfreey
  | oneBranch hany hbs hfreey hown => exact .oneBranch hany (hbs.imp hL) hfreey (hown.imp hL)
  | branches hany hown hbs htwo hr hfreey =>
      exact .branches hany (hown.imp hL) (hbs.imp hL) htwo hr hfreey

theorem AllJoined.imp {own : SchemaId} {ms : List SchemaId} (h : AllJoined L t own ms r) :
    AllJoined L' t own ms r := by
  induction h with
  | nil => exact .nil
  | clash hm => exact .clash (hm.imp hL)
  | cons hm _ ih => exact .cons (hm.imp hL) ih

theorem AlternativesJoined.imp {own : SchemaId} (h : AlternativesJoined L t s own r) :
    AlternativesJoined L' t s own r := by
  cases h with
  | neither ha ho => exact .neither ha ho
  | anyClash ha hbs => exact .anyClash ha (hbs.imp hL)
  | oneClash ho hbs => exact .oneClash ho (hbs.imp hL)
  | any ha ho hbs hr => exact .any ha ho (hbs.imp hL) hr
  | one ha ho hbs hr => exact .one ha ho (hbs.imp hL) hr
  | both ha ho has hos hbs hr => exact .both ha ho (has.imp hL) (hos.imp hL) (hbs.imp hL) hr

theorem Narrowed.imp {c : SchemaId} (h : Narrowed L t s c r) : Narrowed L' t s c r := by
  cases h with
  | unmatched hc => exact .unmatched hc
  | anyKind hc hk => exact .anyKind hc hk
  | noKind hc hk hs => exact .noKind hc hk hs
  | kinds hc hk hs hr => exact .kinds hc hk hs (hr.imp hL)

theorem FormJoined.imp (h : FormJoined L t s r) : FormJoined L' t s r := by
  cases h with
  | bottom hb => exact .bottom hb
  | narrowed hc hr => exact .narrowed hc (hr.imp hL)
  | noBase hc hs => exact .noBase hc hs
  | allClash hc hs hall => exact .allClash hc hs (hall.imp hL)
  | alternatives hc hs hall hr => exact .alternatives hc hs (hall.imp hL) (hr.imp hL)

end Weaker

/-! ## Later arenas -/

section Growth

variable {P : Json → Prop} {L : Law P} {a b : Arena}

theorem operandsOf_of_grows (h : Grows a b) {x : SchemaId} (hx : x < a.next) :
    b.operandsOf x = a.operandsOf x := by
  unfold operandsOf
  rw [h.operands x hx]

theorem Joined.mono (ha : a.WellFormed P) (hb : b.WellFormed P) (h : Grows a b) {x y : SchemaId}
    {r : Option SchemaId} (hj : Joined L a x y r) : Joined L b x y r := by
  cases hj with
  | left hx => exact .left (h.done _ _ hx)
  | right hx hy => exact .right (h.done _ _ hx) (h.done _ _ hy)
  | @forms nx ny _ hx hy hr hrecord hlaw =>
      have hnx := ha.form _ _ hx
      have hny := ha.form _ _ hy
      have hbare : ∀ {n}, a.IsForm n → b.Bare n → a.Bare n :=
        fun hn => (bare_iff ha h.schema (ha.isForm_lt hn)).1
      refine .forms (h.done _ _ hx) (h.done _ _ hy) (fun n hn => h.form (hr n hn)) ?_
        (L.both_mono ha hb h hnx hny hr hlaw)
      intro hnone hbx hby
      obtain ⟨hne, p, hp⟩ := hrecord hnone (hbare hnx hbx) (hbare hny hby)
      exact ⟨hne, p, h.kept _ _ p _ (ha.isForm_lt hnx) (ha.isForm_lt hny) (hbare hnx hbx)
        (hbare hny hby) hp⟩

/-- A normal form is its own, so the conjunction of two of them obeys the law for these two. -/
theorem Joined.both_of_isForm {x y : SchemaId} {r : Option SchemaId} (hx : a.IsForm x)
    (hy : a.IsForm y) (hj : Joined L a x y r) : L.both a x y r := by
  cases hj with
  | left hnone => cases hx.symm.trans hnone
  | right _ hnone => cases hy.symm.trans hnone
  | forms hnx hny _ _ hlaw =>
      cases hx.symm.trans hnx
      cases hy.symm.trans hny
      exact hlaw

/-- A conjunction is a normal form. -/
theorem Joined.isForm {x y n : SchemaId} (hj : Joined L a x y (some n)) : a.IsForm n := by
  cases hj with
  | forms _ _ hr _ _ => exact hr n rfl

theorem ChildJoined.mono (ha : a.WellFormed P) (hb : b.WellFormed P) (h : Grows a b)
    {x y : SchemaId} (hx : x < a.next) (hy : y < a.next) {r : Option SchemaId}
    (hj : ChildJoined L a x y r) : ChildJoined L b x y r := by
  cases hj with
  | same heq => exact .same heq
  | single hd =>
      refine .single ?_
      rwa [operandsOf_of_grows h hx, operandsOf_of_grows h hy]
  | putOff hd =>
      refine .putOff ?_
      rw [operandsOf_of_grows h hx, operandsOf_of_grows h hy,
        h.operands _ (ha.operands _ _ hd).1]
      exact hd
  | unmatched hne hfx hfy hnone =>
      exact .unmatched hne (h.done _ _ hfx) (h.done _ _ hfy) hnone
  | joined hne hnx hny hr => exact .joined hne (h.done _ _ hnx) (h.done _ _ hny) (hr.mono ha hb h)

variable {s₁ s₂ : Schema}

theorem ItemsJoined.mono (ha : a.WellFormed P) (hb : b.WellFormed P) (h : Grows a b)
    (h₁ : s₁.Proper P a.next) (h₂ : s₂.Proper P a.next) {r : Option (Option SchemaId)}
    (hj : ItemsJoined L a s₁ s₂ r) : ItemsJoined L b s₁ s₂ r := by
  cases hj with
  | both hx hy hz =>
      exact .both hx hy (hz.mono ha hb h (h₁.links _ (Schema.mem_links_of_items hx))
        (h₂.links _ (Schema.mem_links_of_items hy)))
  | one hone => exact .one hone

theorem ExtrasJoined.mono (ha : a.WellFormed P) (hb : b.WellFormed P) (h : Grows a b)
    (h₁ : s₁.Proper P a.next) (h₂ : s₂.Proper P a.next) {r : Option Extras}
    (hj : ExtrasJoined L a s₁ s₂ r) : ExtrasJoined L b s₁ s₂ r := by
  cases hj with
  | left hu => exact .left hu
  | right hu => exact .right hu
  | closed hc => exact .closed hc
  | both hx hy hz =>
      exact .both hx hy (hz.mono ha hb h (h₁.links _ (Schema.mem_links_of_extras hx))
        (h₂.links _ (Schema.mem_links_of_extras hy)))

theorem PropertyJoined.mono (ha : a.WellFormed P) (hb : b.WellFormed P) (h : Grows a b)
    (h₁ : s₁.Proper P a.next) (h₂ : s₂.Proper P a.next) {k : String} {r : Option SchemaId}
    (hj : PropertyJoined L a s₁ s₂ k r) : PropertyJoined L b s₁ s₂ k r := by
  cases hj with
  | both hx hy hr =>
      exact .both hx hy (hr.mono ha hb h (h₁.links _ (Schema.mem_links_of_property hx))
        (h₂.links _ (Schema.mem_links_of_property hy)))
  | leftExtra hx hy he hr =>
      exact .leftExtra hx hy he (hr.mono ha hb h (h₁.links _ (Schema.mem_links_of_property hx))
        (h₂.links _ (Schema.mem_links_of_extras he)))
  | left hx hy he => exact .left hx hy he
  | rightExtra hx hy he hr =>
      exact .rightExtra hx hy he (hr.mono ha hb h (h₁.links _ (Schema.mem_links_of_extras he))
        (h₂.links _ (Schema.mem_links_of_property hy)))
  | right hx hy he => exact .right hx hy he

theorem PropertiesJoined.mono (ha : a.WellFormed P) (hb : b.WellFormed P) (h : Grows a b)
    (h₁ : s₁.Proper P a.next) (h₂ : s₂.Proper P a.next) {keys : List String}
    {m : Dict String SchemaId} {r : Option (Dict String SchemaId)}
    (hj : PropertiesJoined L a s₁ s₂ keys m r) : PropertiesJoined L b s₁ s₂ keys m r := by
  cases hj with
  | clash hk hp => exact .clash hk (hp.mono ha hb h h₁ h₂)
  | all hd hin hout =>
      refine .all hd (fun k hk => ?_) hout
      obtain ⟨c, hc, hp⟩ := hin k hk
      exact ⟨c, hc, hp.mono ha hb h h₁ h₂⟩

theorem OwnJoined.mono (ha : a.WellFormed P) (hb : b.WellFormed P) (h : Grows a b)
    (h₁ : s₁.Proper P a.next) (h₂ : s₂.Proper P a.next) {own : Schema}
    (hj : OwnJoined L a s₁ s₂ own) : OwnJoined L b s₁ s₂ own := by
  cases hj with
  | mk hk hi he hd =>
      exact .mk hk (hi.mono ha hb h h₁ h₂) (he.mono ha hb h h₁ h₂) (hd.mono ha hb h h₁ h₂)

theorem Crossed.mono (ha : a.WellFormed P) (hb : b.WellFormed P) (h : Grows a b)
    {left right bs : List SchemaId} (hj : Crossed L a left right bs) :
    Crossed L b left right bs where
  sound c hc := by
    obtain ⟨l, hl, r, hr, hlr⟩ := hj.sound c hc
    exact ⟨l, hl, r, hr, hlr.mono ha hb h⟩
  complete l hl r hr := by
    obtain ⟨o, ho, hmem⟩ := hj.complete l hl r hr
    exact ⟨o, ho.mono ha hb h, hmem⟩

/-- Branches are normal forms. -/
theorem Crossed.isForm {left right bs : List SchemaId} (hj : Crossed L a left right bs) :
    ∀ c ∈ bs, a.IsForm c := by
  intro c hc
  obtain ⟨l, -, r, -, hlr⟩ := hj.sound c hc
  exact hlr.isForm

theorem Stored.mono (ha : a.WellFormed P) (h : Grows a b) {s : Schema} {r : Option SchemaId}
    (hj : Stored a s r) : Stored b s r := by
  cases hj with
  | bottom hs => exact .bottom hs
  | stored hs hn hsn => exact .stored hs (h.form hn) ((h.schema _ (ha.isForm_lt hn)).trans hsn)

theorem Reused.mono (ha : a.WellFormed P) (h : Grows a b) {x y : SchemaId} (hx : x < a.next)
    (hy : y < a.next) {out : Schema} {r : Option SchemaId} (hj : Reused a x y out r) :
    Reused b x y out r := by
  have hsx := h.schema x hx
  have hsy := h.schema y hy
  cases hj with
  | left hl => exact .left (hsx ▸ hl)
  | right hr hl => exact .right (hsy ▸ hr) (hsx ▸ hl)
  | stored hs hl => exact .stored (hs.mono ha h) (hsx ▸ hl)

theorem BothJoined.mono (ha : a.WellFormed P) (hb : b.WellFormed P) (h : Grows a b)
    {x y : SchemaId} (hx : x < a.next) (hy : y < a.next) {r : Option SchemaId}
    (hj : BothJoined L a x y r) : BothJoined L b x y r := by
  have hsx := h.schema x hx
  have hsy := h.schema y hy
  have hpx := ha.proper x
  have hpy := ha.proper y
  have hown : ∀ {own}, OwnJoined L a (a.schema x) (a.schema y) own →
      OwnJoined L b (b.schema x) (b.schema y) own := fun hown => by
    rw [hsx, hsy]
    exact hown.mono ha hb h hpx hpy
  have hcrossed : ∀ {bs}, Crossed L a (a.sides x) (a.sides y) bs →
      Crossed L b (b.sides x) (b.sides y) bs := fun hbs => by
    unfold sides at hbs ⊢
    rw [hsx, hsy]
    exact hbs.mono ha hb h
  cases hj with
  | rightFree hfree => exact .rightFree (hsy ▸ hfree)
  | leftFree hfree hy => exact .leftFree (hsx ▸ hfree) (hsy ▸ hy)
  | itemsClash hi hfreey =>
      refine .itemsClash ?_ (hsy ▸ hfreey)
      rw [hsx, hsy]
      exact hi.mono ha hb h hpx hpy
  | propertyClash hk hc hfreey =>
      refine .propertyClash (hsx ▸ hsy ▸ hk) ?_ (hsy ▸ hfreey)
      rw [hsx, hsy]
      exact hc.mono ha hb h hpx hpy
  | plain ho hanyx hanyy hr hfreey hfreex =>
      exact .plain (hown ho) (hsx ▸ hanyx) (hsy ▸ hanyy) (hr.mono ha h hx hy) (hsy ▸ hfreey)
        (hsx ▸ hfreex)
  | noBranch hany hbs hfreey =>
      exact .noBranch (hsx ▸ hsy ▸ hany) (hcrossed hbs) (hsy ▸ hfreey)
  | oneBranch hany hbs hfreey ho =>
      exact .oneBranch (hsx ▸ hsy ▸ hany) (hcrossed hbs) (hsy ▸ hfreey) (hown ho)
  | branches hany ho hbs htwo hr hfreey =>
      exact .branches (hsx ▸ hsy ▸ hany) (hown ho) (hcrossed hbs) htwo (hr.mono ha h hx hy)
        (hsy ▸ hfreey)

theorem AllJoined.mono (ha : a.WellFormed P) (hb : b.WellFormed P) (h : Grows a b)
    {own : SchemaId} {ms : List SchemaId} {r : Option SchemaId} (hj : AllJoined L a own ms r) :
    AllJoined L b own ms r := by
  induction hj with
  | nil => exact .nil
  | clash hm => exact .clash (hm.mono ha hb h)
  | cons hm _ ih => exact .cons (hm.mono ha hb h) ih

end Growth

end ApiModel.Arena
