/-
  ApiModel.Proofs.Json

  Values whose objects do not repeat a key. Reading a text gives nothing else, and on such values the
  equality of values is an equivalence: an object equal to another has the same keys, not only keys
  among those of the other.
-/
import ApiModel.Json.Reader
import ApiModel.Proofs.Dict

namespace ApiModel

/-- Member by member, a relation turns around where it does between any two members. -/
theorem forall₂_symm {α : Type} {R : α → α → Prop} {xs ys : List α} (h : List.Forall₂ R xs ys)
    (hR : ∀ x ∈ xs, ∀ y ∈ ys, R x y → R y x) : List.Forall₂ R ys xs := by
  induction h with
  | nil => exact .nil
  | cons hxy _ ih =>
      refine .cons (hR _ List.mem_cons_self _ List.mem_cons_self hxy) (ih fun x hx y hy => ?_)
      exact hR x (List.mem_cons_of_mem _ hx) y (List.mem_cons_of_mem _ hy)

/-- Member by member, a relation goes on where it does from any member of the first list. -/
theorem forall₂_trans {α : Type} {R : α → α → Prop} {xs ys zs : List α}
    (h : List.Forall₂ R xs ys) (h' : List.Forall₂ R ys zs)
    (hR : ∀ x ∈ xs, ∀ y z, R x y → R y z → R x z) : List.Forall₂ R xs zs := by
  induction h generalizing zs with
  | nil => cases h'; exact .nil
  | cons hxy _ ih =>
      cases h' with
      | cons hyz hrest =>
          refine .cons (hR _ List.mem_cons_self _ _ hxy hyz) (ih hrest fun x hx => ?_)
          exact hR x (List.mem_cons_of_mem _ hx)

namespace Number

theorem same_comm (m n : Number) : m.same n = n.same m := by
  cases m <;> cases n <;> simp [same, Binary64.same, Bool.beq_comm]

theorem same_trans {l m n : Number} (h : l.same m = true) (h' : m.same n = true) :
    l.same n = true := by
  cases l <;> cases m <;> cases n <;> simp_all [same, Binary64.same]

end Number

namespace Json

/-! ## Distinct keys -/

/-- No object in a value repeats a key. -/
inductive Distinct : Json → Prop
  | null : Distinct .null
  | bool (b : Bool) : Distinct (.bool b)
  | num (n : Number) : Distinct (.num n)
  | str (t : String) : Distinct (.str t)
  | arr {xs : List Json} (h : ∀ x ∈ xs, Distinct x) : Distinct (.arr xs)
  | obj {fs : List (String × Json)} (hkeys : (fs.map Prod.fst).Nodup)
      (h : ∀ e ∈ fs, Distinct e.2) : Distinct (.obj fs)

theorem Distinct.item {xs : List Json} (h : Distinct (.arr xs)) : ∀ x ∈ xs, Distinct x := by
  cases h with
  | arr h => exact h

theorem Distinct.keys {fs : List (String × Json)} (h : Distinct (.obj fs)) :
    (fs.map Prod.fst).Nodup := by
  cases h with
  | obj hkeys _ => exact hkeys

theorem Distinct.field {fs : List (String × Json)} (h : Distinct (.obj fs)) {k : String}
    {v : Json} (hv : fs.lookup k = some v) : Distinct v := by
  cases h with
  | obj _ hfields =>
      obtain ⟨l₁, l₂, rfl, -⟩ := List.lookup_eq_some_iff.1 hv
      exact hfields (k, v) (by simp)

@[simp] theorem distinct_str (t : String) : Distinct (.str t) := .str t

@[simp] theorem distinct_arr {xs : List Json} : Distinct (.arr xs) ↔ ∀ x ∈ xs, x.Distinct :=
  ⟨Distinct.item, .arr⟩

@[simp] theorem distinct_obj {fs : List (String × Json)} : Distinct (.obj fs) ↔
    (fs.map Prod.fst).Nodup ∧ ∀ e ∈ fs, e.2.Distinct := by
  constructor
  · intro h
    cases h with
    | obj hkeys h => exact ⟨hkeys, h⟩
  · exact fun h => .obj h.1 h.2

/-! ## Equality of values -/

theorem sameItems_iff {xs ys : List Json} :
    sameItems xs ys = true ↔ List.Forall₂ (fun x y => same x y = true) xs ys := by
  induction xs generalizing ys with
  | nil => cases ys <;> simp [sameItems]
  | cons x xs ih =>
      cases ys with
      | nil => simp [sameItems]
      | cons y ys => simp [sameItems, ih]

theorem sameFields_iff {fs gs : List (String × Json)} :
    sameFields fs gs = true ↔
      ∀ e ∈ fs, ∃ w, gs.lookup e.1 = some w ∧ same e.2 w = true := by
  induction fs with
  | nil => simp [sameFields]
  | cons e fs ih =>
      obtain ⟨k, v⟩ := e
      simp only [sameFields, Bool.and_eq_true, ih, List.forall_mem_cons]
      refine and_congr_left fun _ => ?_
      cases gs.lookup k <;> simp

theorem same_obj_iff {fs gs : List (String × Json)} :
    same (.obj fs) (.obj gs) = true ↔ fs.length = gs.length ∧
      ∀ e ∈ fs, ∃ w, gs.lookup e.1 = some w ∧ same e.2 w = true := by
  simp only [same, Bool.and_eq_true, beq_iff_eq, sameFields_iff]

/-- Equal objects have the same keys. -/
theorem keys_subset_of_same {fs gs : List (String × Json)} (hfs : (fs.map Prod.fst).Nodup)
    (h : same (.obj fs) (.obj gs) = true) : ∀ e ∈ gs, e.1 ∈ fs.map Prod.fst := by
  obtain ⟨hlen, hfields⟩ := same_obj_iff.1 h
  have hsub : fs.map Prod.fst ⊆ gs.map Prod.fst := by
    intro k hk
    obtain ⟨e, he, rfl⟩ := List.mem_map.1 hk
    obtain ⟨w, hw, -⟩ := hfields e he
    obtain ⟨l₁, l₂, rfl, -⟩ := List.lookup_eq_some_iff.1 hw
    simp
  have hperm : (fs.map Prod.fst).Perm (gs.map Prod.fst) :=
    (List.Nodup.subperm hfs hsub).perm_of_length_le (by simp [hlen])
  exact fun e he => hperm.symm.subset (List.mem_map_of_mem he)

theorem Distinct.same_refl {v : Json} (h : v.Distinct) : same v v = true := by
  induction h with
  | null => rfl
  | bool b => simp [same]
  | num n => cases n <;> simp [same, Number.same, Binary64.same]
  | str t => simp [same]
  | arr _ ih => exact sameItems_iff.2 (List.forall₂_same.2 ih)
  | obj hkeys _ ih =>
      exact same_obj_iff.2 ⟨rfl, fun e he => ⟨e.2, Dict.lookup_of_mem hkeys he, ih e he⟩⟩

theorem Distinct.same_symm {v w : Json} (hv : v.Distinct) (hw : w.Distinct)
    (h : same v w = true) : same w v = true := by
  induction hv generalizing w with
  | null => cases w <;> simp [same] at h ⊢
  | bool b => cases w <;> simp [same] at h ⊢; exact h.symm
  | num n => cases w <;> simp only [same, Bool.false_eq_true] at h ⊢; rwa [Number.same_comm]
  | str t => cases w <;> simp [same] at h ⊢; exact h.symm
  | arr hxs ih =>
      cases w with
      | arr ys =>
          exact sameItems_iff.2 (forall₂_symm (sameItems_iff.1 h)
            fun x hx y hy => ih x hx (hw.item y hy))
      | _ => simp [same] at h
  | @obj fs hkeys hfields ih =>
      cases w with
      | obj gs =>
          obtain ⟨hlen, hsame⟩ := same_obj_iff.1 h
          refine same_obj_iff.2 ⟨hlen.symm, fun e he => ?_⟩
          obtain ⟨f, hf, hfe⟩ := List.mem_map.1 (keys_subset_of_same hkeys h e he)
          obtain ⟨u, hu, hfu⟩ := hsame f hf
          -- the value under this key is that of `e`, as the keys are distinct
          have hlookup := Dict.lookup_of_mem (k := e.1) (v := e.2) hw.keys he
          rw [hfe, hlookup] at hu
          cases hu
          refine ⟨f.2, Dict.lookup_of_mem hkeys (hfe ▸ hf), ih f hf (hw.field hlookup) hfu⟩
      | _ => simp [same] at h

theorem Distinct.same_trans {u v w : Json} (hu : u.Distinct) (huv : same u v = true)
    (hvw : same v w = true) : same u w = true := by
  induction hu generalizing v w with
  | null => cases v <;> cases w <;> simp [same] at huv hvw ⊢
  | bool b => cases v <;> cases w <;> simp [same] at huv hvw ⊢; exact huv.trans hvw
  | num n =>
      cases v <;> cases w <;> simp only [same, Bool.false_eq_true] at huv hvw ⊢
      exact Number.same_trans huv hvw
  | str t => cases v <;> cases w <;> simp [same] at huv hvw ⊢; exact huv.trans hvw
  | @arr xs hxs ih =>
      cases v with
      | arr ys =>
          cases w with
          | arr zs =>
              exact sameItems_iff.2 (forall₂_trans (sameItems_iff.1 huv) (sameItems_iff.1 hvw)
                fun x hx y z => ih x hx)
          | _ => simp [same] at hvw
      | _ => simp [same] at huv
  | @obj fs _ _ ih =>
      cases v with
      | obj gs =>
          cases w with
          | obj hs =>
              obtain ⟨hlen, hsame⟩ := same_obj_iff.1 huv
              obtain ⟨hlen', hsame'⟩ := same_obj_iff.1 hvw
              refine same_obj_iff.2 ⟨hlen.trans hlen', fun e he => ?_⟩
              obtain ⟨x, hx, hex⟩ := hsame e he
              obtain ⟨l₁, l₂, rfl, -⟩ := List.lookup_eq_some_iff.1 hx
              obtain ⟨y, hy, hxy⟩ := hsame' (e.1, x) (by simp)
              exact ⟨y, hy, ih e he hex hxy⟩
          | _ => simp [same] at hvw
      | _ => simp [same] at huv

/-! ## Reading -/

/-- The map of a list of entries has the values of the entries, and no key twice. -/
theorem distinct_ofList {es : List (String × Json)} (h : ∀ e ∈ es, e.2.Distinct) :
    Distinct (.obj (Dict.ofList es).entries) := by
  have hgen : ∀ (es : List (String × Json)) (d : Dict String Json), (∀ e ∈ es, e.2.Distinct) →
      d.keys.Nodup → (∀ v ∈ d.values, v.Distinct) →
      Distinct (.obj (es.foldl (fun d e => d.insert e.1 e.2) d).entries) := by
    intro es
    induction es with
    | nil => exact fun d _ hkeys hd => .obj hkeys fun e he => hd _ (List.mem_map_of_mem he)
    | cons e es ih =>
        intro d hes hkeys hd
        refine ih _ (fun x hx => hes x (by simp [hx])) (Dict.nodup_keys_insert hkeys _ _) ?_
        intro v hv
        obtain ⟨k, hk⟩ := Dict.get?_of_mem_values (Dict.nodup_keys_insert hkeys _ _) hv
        rw [Dict.get?_insert] at hk
        split at hk
        · cases hk
          exact hes e (by simp)
        · exact hd v (Dict.mem_values_of_get? hk)
  exact hgen es .empty h List.nodup_nil (by simp [Dict.values, Dict.empty])

theorem ok_of_bind {ε α β : Type} {x : Except ε α} {f : α → Except ε β} {b : β}
    (h : x >>= f = .ok b) : ∃ a, x = .ok a ∧ f a = .ok b := by
  cases x with
  | error e => cases h
  | ok a => exact ⟨a, rfl, h⟩

/-- With so many calls, the three readers give values with distinct keys when what has been read
    already has. -/
structure ReadersDistinct (rules : Rules) (calls : Nat) : Prop where
  value : ∀ {depth cs v rest}, readValue rules calls depth cs = .ok (v, rest) → v.Distinct
  items : ∀ {depth done cs v rest}, (∀ x ∈ done, Distinct x) →
    readItems rules calls depth done cs = .ok (v, rest) → v.Distinct
  fields : ∀ {depth done cs v rest}, (∀ e ∈ done, e.2.Distinct) →
    readFields rules calls depth done cs = .ok (v, rest) → v.Distinct

variable {rules : Rules} {calls depth : Nat} {cs rest : List Char} {v : Json}

theorem ReadersDistinct.zero (rules : Rules) : ReadersDistinct rules 0 where
  value h := by simp [readValue] at h
  items _ h := by simp [readItems] at h
  fields _ h := by simp [readFields] at h

theorem ReadersDistinct.value_succ (ih : ReadersDistinct rules calls)
    (hnumber : ∀ t text v, rules.number t text = .ok v → v.Distinct)
    (h : readValue rules (calls + 1) depth cs = .ok (v, rest)) : v.Distinct := by
  simp only [readValue] at h
  split at h
  · cases h
  · obtain ⟨r, -, h⟩ := ok_of_bind h
    cases h
    exact .null
  · obtain ⟨r, -, h⟩ := ok_of_bind h
    cases h
    exact .bool true
  · obtain ⟨r, -, h⟩ := ok_of_bind h
    cases h
    exact .bool false
  · obtain ⟨r, -, h⟩ := ok_of_bind h
    cases h
    exact .str _
  -- an array, which may be empty
  · split at h
    · cases h
    · split at h
      · cases h
        exact .arr (by simp)
      · exact ih.items (by simp) h
  -- an object, which may be empty
  · split at h
    · cases h
    · split at h
      · cases h
        exact .obj List.nodup_nil (by simp)
      · exact ih.fields (by simp) h
  · split at h
    · obtain ⟨r, -, h⟩ := ok_of_bind h
      obtain ⟨n, hn, h⟩ := ok_of_bind h
      cases h
      exact hnumber _ _ _ hn
    · cases h

theorem ReadersDistinct.items_succ (ih : ReadersDistinct rules calls) {done : List Json}
    (hdone : ∀ x ∈ done, Distinct x)
    (h : readItems rules (calls + 1) depth done cs = .ok (v, rest)) : v.Distinct := by
  simp only [readItems] at h
  obtain ⟨⟨item, r⟩, hitem, h⟩ := ok_of_bind h
  have hitems : ∀ x ∈ item :: done, Distinct x := by
    intro x hx
    rcases List.mem_cons.1 hx with rfl | hx
    · exact ih.value hitem
    · exact hdone x hx
  dsimp only at h
  split at h
  · exact ih.items hitems h
  · cases h
    exact .arr fun x hx => hitems x (List.mem_reverse.1 hx)
  · cases h
  · cases h

theorem ReadersDistinct.fields_succ (ih : ReadersDistinct rules calls)
    {done : List (String × Json)} (hdone : ∀ e ∈ done, e.2.Distinct)
    (h : readFields rules (calls + 1) depth done cs = .ok (v, rest)) : v.Distinct := by
  simp only [readFields] at h
  split at h
  · split at h
    · cases h
    obtain ⟨⟨key, r⟩, -, h⟩ := ok_of_bind h
    dsimp only at h
    split at h
    · obtain ⟨⟨value, r'⟩, hvalue, h⟩ := ok_of_bind h
      have hentries : ∀ e ∈ (key, value) :: done, e.2.Distinct := by
        intro e he
        rcases List.mem_cons.1 he with rfl | he
        · exact ih.value hvalue
        · exact hdone e he
      dsimp only at h
      split at h
      · exact ih.fields hentries h
      -- a repeated key has one entry in the end
      · cases h
        exact distinct_ofList fun e he => hentries e (List.mem_reverse.1 he)
      · cases h
      · cases h
    · cases h
    · cases h
  · cases h
  · cases h

theorem readersDistinct (hnumber : ∀ t text v, rules.number t text = .ok v → v.Distinct)
    (calls : Nat) : ReadersDistinct rules calls := by
  induction calls with
  | zero => exact .zero rules
  | succ calls ih => exact ⟨ih.value_succ hnumber, ih.items_succ, ih.fields_succ⟩

/-- A value that is read has distinct keys. -/
theorem distinct_of_read (hnumber : ∀ t text v, rules.number t text = .ok v → v.Distinct)
    {text : String} (h : read rules text = .ok v) : v.Distinct := by
  obtain ⟨⟨w, rest⟩, hw, h⟩ := ok_of_bind h
  dsimp only at h
  split at h
  · cases h
    exact (readersDistinct hnumber _).value hw
  · cases h

end Json

end ApiModel
