/-
  ApiModel.Proofs.Text.Template

  Templates with names between braces. Filling one at once replaces each placeholder of the template
  by its value and looks at no value again; filling it by one variable after the other may meet
  placeholders that came of values. Where the template filled at once shows no placeholder of its
  variables, none can have come up on the way, so both ways give the same text, whatever the order
  of the variables. Values without braces in a template whose braces do not nest are such a case.
-/
import ApiModel.Text.Replace
import Mathlib.Data.List.Basic
import Mathlib.Data.List.Infix

namespace ApiModel.Text

variable {n d c cs rest : List Char} {x : Char} {vars vars' : List (List Char × List Char)}

/-! ## Placeholders -/

/-- A name between braces. -/
def placeholder (name : List Char) : List Char := '\x7b' :: name ++ ['\x7d']

/-- A text without braces. -/
def Braceless (cs : List Char) : Prop := '\x7b' ∉ cs ∧ '\x7d' ∉ cs

theorem placeholder_append (n rest : List Char) :
    placeholder n ++ rest = '\x7b' :: (n ++ '\x7d' :: rest) := by
  simp [placeholder]

/-- What stands before a closing brace, up to the first of them. -/
theorem eq_of_closed_isPrefix {n m : List Char} (hn : '\x7d' ∉ n) (hm : '\x7d' ∉ m)
    (h : n ++ ['\x7d'] <+: m ++ '\x7d' :: rest) : n = m := by
  induction n generalizing m with
  | nil =>
    cases m with
    | nil => rfl
    | cons y m => simp_all
  | cons y n ih =>
    cases m with
    | nil => simp_all
    | cons z m =>
      obtain ⟨rfl, hrest⟩ := List.cons_prefix_cons.1 h
      rw [ih (List.not_mem_of_not_mem_cons hn) (List.not_mem_of_not_mem_cons hm) hrest]

/-- At most one placeholder stands at the start of a text. -/
theorem eq_of_placeholder_isPrefix {n m : List Char} (hn : Braceless n) (hm : Braceless m)
    (h : placeholder n <+: placeholder m ++ rest) : n = m := by
  rw [placeholder_append] at h
  exact eq_of_closed_isPrefix hn.2 hm.2 (List.cons_prefix_cons.1 h).2

/-! ## Filling at once -/

/-- A template with each placeholder of a variable replaced by the value of the variable; what
    replaces it is not looked at again. -/
def fillAtOnce (vars : List (List Char × List Char)) : List Char → List Char
  | [] => []
  | x :: rest =>
    match vars.find? fun v => (placeholder v.1).isPrefixOf (x :: rest) with
    | some (name, value) => value ++ fillAtOnce vars (rest.drop (name.length + 1))
    | none => x :: fillAtOnce vars rest
termination_by cs => cs.length
decreasing_by all_goals simp only [List.length_cons, List.length_drop]; omega

/-- The names of some variables have no braces. -/
def NamesBraceless (vars : List (List Char × List Char)) : Prop := ∀ v ∈ vars, Braceless v.1

/-- None of the variables stands in a text between braces. -/
def Unfilled (vars : List (List Char × List Char)) (cs : List Char) : Prop :=
  ∀ v ∈ vars, ¬ placeholder v.1 <:+: cs

@[simp] theorem fillAtOnce_nil (vars : List (List Char × List Char)) :
    fillAtOnce vars [] = [] := by rw [fillAtOnce]

/-- Where no placeholder stands a character is passed over. -/
theorem fillAtOnce_cons (h : ∀ v ∈ vars, ¬ placeholder v.1 <+: x :: rest) :
    fillAtOnce vars (x :: rest) = x :: fillAtOnce vars rest := by
  have hnone : vars.find? (fun v => (placeholder v.1).isPrefixOf (x :: rest)) = none := by
    rw [List.find?_eq_none]
    exact fun v hv hpre => h v hv (List.isPrefixOf_iff_prefix.1 hpre)
  rw [fillAtOnce, hnone]

theorem fillAtOnce_none (cs : List Char) : fillAtOnce [] cs = cs := by
  induction cs with
  | nil => simp
  | cons x cs ih => rw [fillAtOnce_cons (by simp), ih]

/-- A placeholder is replaced by the value of its name. -/
theorem fillAtOnce_placeholder (hvars : NamesBraceless vars) (h : vars.lookup n = some d) :
    fillAtOnce vars (placeholder n ++ rest) = d ++ fillAtOnce vars rest := by
  obtain ⟨before, after, rfl, hbefore⟩ := List.lookup_eq_some_iff.1 h
  have hn : Braceless n := hvars (n, d) (by simp)
  have hfind : (before ++ (n, d) :: after).find?
      (fun v => (placeholder v.1).isPrefixOf (placeholder n ++ rest)) = some (n, d) := by
    rw [List.find?_eq_some_iff_append]
    refine ⟨List.isPrefixOf_iff_prefix.2 (List.prefix_append _ _), before, after, rfl,
      fun v hv => ?_⟩
    rw [Bool.not_eq_true', Bool.eq_false_iff, Ne, List.isPrefixOf_iff_prefix]
    intro hpre
    have hname := eq_of_placeholder_isPrefix (hvars v (by simp [hv])) hn hpre
    exact absurd hname.symm (bne_iff_ne.1 (hbefore v hv))
  rw [placeholder_append] at hfind ⊢
  rw [fillAtOnce, hfind]
  dsimp only
  rw [List.drop_length_add_append, List.drop_one, List.tail_cons]

/-- A template is empty, starts with the placeholder of a variable, or starts with a character that
    is passed over. -/
theorem template_induction {P : List Char → Prop} (vars : List (List Char × List Char))
    (nil : P [])
    (filled : ∀ n d rest, vars.lookup n = some d → P rest → P (placeholder n ++ rest))
    (kept : ∀ x rest, (∀ v ∈ vars, ¬ placeholder v.1 <+: x :: rest) → P rest → P (x :: rest))
    (cs : List Char) : P cs := by
  induction hlength : cs.length using Nat.strong_induction_on generalizing cs with
  | _ length ih =>
    subst hlength
    cases cs with
    | nil => exact nil
    | cons x rest =>
      by_cases hnone : ∀ v ∈ vars, ¬ placeholder v.1 <+: x :: rest
      · exact kept x rest hnone (ih _ (by simp) rest rfl)
      · push Not at hnone
        obtain ⟨v, hv, more, hmore⟩ := hnone
        have hlt : more.length < (x :: rest).length := by
          rw [← hmore, placeholder_append]
          simp only [List.length_cons, List.length_append]
          omega
        obtain ⟨d, hd⟩ : ∃ d, vars.lookup v.1 = some d :=
          Option.isSome_iff_exists.1 (List.lookup_isSome_iff.2 ⟨v, hv, by simp⟩)
        rw [← hmore]
        exact filled v.1 d more hd (ih _ hlt more rfl)

/-- Characters that open no placeholder are passed over. -/
theorem fillAtOnce_append_of_not_mem (hcs : '\x7b' ∉ cs) :
    fillAtOnce vars (cs ++ rest) = cs ++ fillAtOnce vars rest := by
  induction cs with
  | nil => rfl
  | cons x cs ih =>
    have hx : ∀ v ∈ vars, ¬ placeholder v.1 <+: x :: (cs ++ rest) := fun v _ hpre =>
      List.ne_of_not_mem_cons hcs (List.cons_prefix_cons.1 hpre).1
    rw [List.cons_append, fillAtOnce_cons hx, ih (List.not_mem_of_not_mem_cons hcs),
      List.cons_append]

/-! ## Text in front of a template -/

/-- A character in front makes no difference unless it opens a placeholder that is there when the
    rest is filled. -/
theorem fillAtOnce_cons_of_unfilled (hvars : NamesBraceless vars)
    (h : Unfilled vars (x :: fillAtOnce vars rest)) :
    fillAtOnce vars (x :: rest) = x :: fillAtOnce vars rest := by
  refine fillAtOnce_cons fun v hv hpre => h v hv ?_
  obtain ⟨more, hmore⟩ := hpre
  rw [placeholder_append] at hmore
  obtain ⟨rfl, rfl⟩ := List.cons.inj hmore
  have hclosed : '\x7b' ∉ v.1 ++ ['\x7d'] := by simpa using (hvars v hv).1
  refine List.IsPrefix.isInfix ⟨fillAtOnce vars more, ?_⟩
  rw [placeholder_append, List.append_cons v.1 _ more, fillAtOnce_append_of_not_mem hclosed,
    ← List.append_cons]

theorem Unfilled.of_suffix (h : Unfilled vars cs) (hsuffix : rest <:+ cs) : Unfilled vars rest :=
  fun v hv hin => h v hv (hin.trans hsuffix.isInfix)

theorem fillAtOnce_append_of_unfilled (hvars : NamesBraceless vars)
    (h : Unfilled vars (cs ++ fillAtOnce vars rest)) :
    fillAtOnce vars (cs ++ rest) = cs ++ fillAtOnce vars rest := by
  induction cs with
  | nil => rfl
  | cons x cs ih =>
    have hrest := ih (h.of_suffix (List.suffix_cons x _))
    rw [List.cons_append, List.cons_append,
      fillAtOnce_cons_of_unfilled hvars (by rwa [hrest]), hrest]

/-! ## Filling by one variable after the other -/

theorem replaceAll_append_of_not_mem (hcs : '\x7b' ∉ cs) :
    replaceAll (placeholder n) d (cs ++ rest) = cs ++ replaceAll (placeholder n) d rest := by
  induction cs with
  | nil => rfl
  | cons x cs ih =>
    have hx : ¬ placeholder n <+: x :: (cs ++ rest) := fun hpre =>
      List.ne_of_not_mem_cons hcs (List.cons_prefix_cons.1 hpre).1
    rw [List.cons_append, replaceAll_cons hx, ih (List.not_mem_of_not_mem_cons hcs),
      List.cons_append]

/-- Replacing one placeholder leaves the others. -/
theorem replaceAll_placeholder_of_ne {m : List Char} (hn : Braceless n) (hm : Braceless m)
    (hne : n ≠ m) : replaceAll (placeholder n) d (placeholder m ++ rest) =
      placeholder m ++ replaceAll (placeholder n) d rest := by
  have hclosed : '\x7b' ∉ m ++ ['\x7d'] := by simpa using hm.1
  have hno : ¬ placeholder n <+: '\x7b' :: (m ++ '\x7d' :: rest) := by
    rw [← placeholder_append]
    exact fun hpre => hne (eq_of_placeholder_isPrefix hn hm hpre)
  rw [placeholder_append, placeholder_append, replaceAll_cons hno, List.append_cons,
    replaceAll_append_of_not_mem hclosed, ← List.append_cons]

/-- The first variable may be filled before the others where no placeholder of these comes up. -/
theorem fillAtOnce_replaceAll (hn : Braceless n) (hvars : NamesBraceless vars)
    (h : Unfilled vars (fillAtOnce ((n, d) :: vars) cs)) :
    fillAtOnce vars (replaceAll (placeholder n) d cs) = fillAtOnce ((n, d) :: vars) cs := by
  have hall : NamesBraceless ((n, d) :: vars) := List.forall_mem_cons.2 ⟨hn, hvars⟩
  induction cs using template_induction ((n, d) :: vars) with
  | nil => simp
  | filled m e rest hlookup ih =>
    rw [fillAtOnce_placeholder hall hlookup] at h ⊢
    have hrest := ih (h.of_suffix (List.suffix_append e _))
    by_cases hm : m = n
    · subst hm
      obtain rfl : d = e := by simpa using hlookup
      have hreplaced : replaceAll (placeholder m) d (placeholder m ++ rest) =
          d ++ replaceAll (placeholder m) d rest := replaceAll_append (m ++ ['\x7d']) rest
      rw [hreplaced, fillAtOnce_append_of_unfilled hvars (by rwa [hrest]), hrest]
    · have hlookup' : vars.lookup m = some e := by
        simpa [List.lookup_cons, beq_false_of_ne hm] using hlookup
      obtain ⟨before, after, hsplit, -⟩ := List.lookup_eq_some_iff.1 hlookup'
      have hm' : Braceless m := hvars (m, e) (by simp [hsplit])
      rw [replaceAll_placeholder_of_ne hn hm' (Ne.symm hm), fillAtOnce_placeholder hvars hlookup',
        hrest]
  | kept x rest hnone ih =>
    rw [fillAtOnce_cons hnone] at h ⊢
    have hrest := ih (h.of_suffix (List.suffix_cons x _))
    rw [replaceAll_cons (hnone (n, d) List.mem_cons_self),
      fillAtOnce_cons_of_unfilled hvars (by rwa [hrest]), hrest]

/-- Where the template filled at once shows no placeholder of its variables, filling it by one
    variable after the other gives the same. -/
theorem foldl_replaceAll_eq (hvars : NamesBraceless vars) (h : Unfilled vars (fillAtOnce vars cs)) :
    vars.foldl (fun cs v => replaceAll (placeholder v.1) v.2 cs) cs = fillAtOnce vars cs := by
  induction vars generalizing cs with
  | nil => exact (fillAtOnce_none cs).symm
  | cons v vars ih =>
    obtain ⟨n, d⟩ := v
    obtain ⟨hn, hvars⟩ := List.forall_mem_cons.1 hvars
    have hstep := fillAtOnce_replaceAll hn hvars (List.forall_mem_cons.1 h).2
    rw [List.foldl_cons, ih hvars (hstep ▸ (List.forall_mem_cons.1 h).2), hstep]

/-- Variables with the same values fill a template in the same way. -/
theorem fillAtOnce_congr (hvars : NamesBraceless vars) (hvars' : NamesBraceless vars')
    (h : ∀ n, vars.lookup n = vars'.lookup n) (cs : List Char) :
    fillAtOnce vars cs = fillAtOnce vars' cs := by
  induction cs using template_induction vars with
  | nil => simp
  | filled n d rest hlookup ih =>
    rw [fillAtOnce_placeholder hvars hlookup, fillAtOnce_placeholder hvars' (h n ▸ hlookup), ih]
  | kept x rest hnone ih =>
    rw [fillAtOnce_cons hnone, ih, fillAtOnce_cons]
    intro v hv hpre
    have hsome : (vars.lookup v.1).isSome = true := by
      rw [h]
      exact List.lookup_isSome_iff.2 ⟨v, hv, by simp⟩
    obtain ⟨w, hw, hname⟩ := List.lookup_isSome_iff.1 hsome
    exact hnone w hw (by rwa [← beq_iff_eq.1 hname])

/-! ## Braces that do not nest -/

/-- Between two opening braces stands a closing one. -/
def Flat (cs : List Char) : Prop :=
  ∀ before between after, cs = before ++ '\x7b' :: between ++ '\x7b' :: after → '\x7d' ∈ between

theorem Flat.of_append (h : Flat (cs ++ rest)) : Flat rest := by
  rintro before between after rfl
  exact h (cs ++ before) between after (by simp)

/-- An opening brace that comes after a text without any. -/
theorem isInfix_of_append {p : List Char} (hcs : '\x7b' ∉ cs)
    (h : '\x7b' :: p <:+: cs ++ rest) : '\x7b' :: p <:+: rest := by
  induction cs with
  | nil => exact h
  | cons x cs ih =>
    rcases List.infix_cons_iff.1 h with hpre | hin
    · exact absurd (List.cons_prefix_cons.1 hpre).1 (List.ne_of_not_mem_cons hcs)
    · exact ih (List.not_mem_of_not_mem_cons hcs) hin

/-- Up to the first closing brace nothing is filled unless an opening brace comes before it. -/
theorem closed_isPrefix_of_fillAtOnce (hopen : ∀ between after,
      cs = between ++ '\x7b' :: after → '\x7d' ∈ between) (hn : '\x7d' ∉ n)
    (h : n ++ ['\x7d'] <+: fillAtOnce vars cs) : n ++ ['\x7d'] <+: cs := by
  induction cs generalizing n with
  | nil => simp at h
  | cons x rest ih =>
    have hx : '\x7b' ≠ x := by
      rintro rfl
      exact absurd (hopen [] rest rfl) List.not_mem_nil
    have hnone : ∀ v ∈ vars, ¬ placeholder v.1 <+: x :: rest := fun v _ hpre =>
      hx (List.cons_prefix_cons.1 hpre).1
    rw [fillAtOnce_cons hnone] at h
    cases n with
    | nil => exact List.cons_prefix_cons.2 ⟨(List.cons_prefix_cons.1 h).1, List.nil_prefix⟩
    | cons y n =>
      obtain ⟨rfl, hrest⟩ := List.cons_prefix_cons.1 h
      obtain ⟨hy, hn⟩ := List.ne_and_not_mem_of_not_mem_cons hn
      refine List.cons_prefix_cons.2 ⟨rfl, ih (fun between after hsplit => ?_) hn hrest⟩
      exact (List.mem_cons.1 (hopen (y :: between) after (by rw [hsplit]; rfl))).resolve_left hy

/-- In a template whose braces do not nest values without braces bring up no placeholder. -/
theorem unfilled_fillAtOnce (hvars : NamesBraceless vars) (hvalues : ∀ v ∈ vars, Braceless v.2)
    (hflat : Flat cs) : Unfilled vars (fillAtOnce vars cs) := by
  intro w hw
  induction cs using template_induction vars with
  | nil => simp [placeholder]
  | filled n d rest hlookup ih =>
    obtain ⟨before, after, rfl, -⟩ := List.lookup_eq_some_iff.1 hlookup
    rw [fillAtOnce_placeholder hvars hlookup]
    intro hin
    exact ih hflat.of_append (isInfix_of_append (hvalues (n, d) (by simp)).1 hin)
  | kept x rest hnone ih =>
    rw [fillAtOnce_cons hnone]
    intro hin
    have hrest : Flat rest := by
      rw [← List.singleton_append] at hflat
      exact hflat.of_append
    rcases List.infix_cons_iff.1 hin with hpre | hin
    · obtain ⟨rfl, hclosed⟩ := List.cons_prefix_cons.1 hpre
      have hopen : ∀ between after, rest = between ++ '\x7b' :: after → '\x7d' ∈ between :=
        fun between after hsplit => hflat [] between after (by rw [hsplit]; rfl)
      have hstart := closed_isPrefix_of_fillAtOnce hopen (hvars w hw).2 hclosed
      exact hnone w hw (List.cons_prefix_cons.2 ⟨rfl, hstart⟩)
    · exact ih hrest hin

end ApiModel.Text
