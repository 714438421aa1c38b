/-
  ApiModel.Proofs.Pointer

  The written form of pointers, read and written again. A pointer reads back as itself, so no two
  pointers are written alike. A text that reads as a pointer is the written form of that pointer
  exactly if every tilde in it starts an escape: any other tilde stands for itself when it is read,
  and would be written as `~0`.
-/
import ApiModel.Pointer
import ApiModel.Text.Replace
import Mathlib.Data.List.Basic

namespace ApiModel.Pointer

variable {c d : Char} {s t : List Char} {ss : List (List Char)}

/-! ## Escapes as replacements -/

theorem replaceAll_single {x : Char} (replacement : List Char) :
    Text.replaceAll [x] replacement (c :: s) =
      (if c = x then replacement else [c]) ++ Text.replaceAll [x] replacement s := by
  split
  · next h => exact h ▸ Text.replaceAll_append [] s
  · next h => exact Text.replaceAll_cons fun hpre => h (List.cons_prefix_cons.1 hpre).1.symm

/-- Escaping is replacing the tildes first and the slashes then. -/
theorem escape_eq_replaceAll (s : List Char) :
    escape s = Text.replaceAll ['/'] ['~', '1'] (Text.replaceAll ['~'] ['~', '0'] s) := by
  induction s with
  | nil => rfl
  | cons c s ih =>
    rw [escape, replaceAll_single]
    by_cases htilde : c = '~'
    · rw [if_pos htilde, if_pos htilde, ih]
      simp [replaceAll_single]
    · rw [if_neg htilde, if_neg htilde, ih]
      by_cases hslash : c = '/' <;> simp [replaceAll_single, hslash]

theorem replaceAll_tilde (replacement s : List Char) :
    Text.replaceAll ['~', d] replacement ('~' :: d :: s) =
      replacement ++ Text.replaceAll ['~', d] replacement s :=
  Text.replaceAll_append [d] s

theorem replaceAll_cons_of_ne {replacement : List Char} (h : c = '~' → s.head? ≠ some d) :
    Text.replaceAll ['~', d] replacement (c :: s) =
      c :: Text.replaceAll ['~', d] replacement s := by
  refine Text.replaceAll_cons fun hpre => ?_
  obtain ⟨hc, rest, rfl⟩ := List.cons_prefix_cons.1 hpre
  exact h hc.symm rfl

/-- Putting slashes for `~1` brings no `0` to the front. -/
theorem head?_replaceAll_ne (h : s.head? ≠ some '0') :
    (Text.replaceAll ['~', '1'] ['/'] s).head? ≠ some '0' := by
  cases s with
  | nil => simp
  | cons c s =>
    by_cases hone : c = '~' ∧ s.head? = some '1'
    · obtain ⟨rfl, hs⟩ := hone
      obtain ⟨s', rfl⟩ : ∃ s', s = '1' :: s' := List.head?_eq_some_iff.1 hs
      simp [replaceAll_tilde]
    · rw [replaceAll_cons_of_ne fun hc hs => hone ⟨hc, hs⟩]
      exact h

/-- A tilde that starts no escape, told by what comes next. -/
theorem head?_ne_of_forall (h : ∀ rest, c = '~' → s = d :: rest → False) (hc : c = '~') :
    s.head? ≠ some d := by
  intro hd
  obtain ⟨rest, rfl⟩ := List.head?_eq_some_iff.1 hd
  exact h rest hc rfl

/-- Reading an escaped segment is replacing `~1` first and `~0` then: the other way round `~01`
    would end as a slash. -/
theorem unescape_eq_replaceAll (s : List Char) :
    unescape s = Text.replaceAll ['~', '0'] ['~'] (Text.replaceAll ['~', '1'] ['/'] s) := by
  induction s using unescape.induct with
  | case1 => rfl
  | case2 s ih =>
    have hkept : Text.replaceAll ['~', '1'] ['/'] ('~' :: '0' :: s) =
        '~' :: '0' :: Text.replaceAll ['~', '1'] ['/'] s := by
      rw [replaceAll_cons_of_ne (by simp), replaceAll_cons_of_ne (by simp)]
    rw [unescape, ih, hkept, replaceAll_tilde]
    rfl
  | case3 s ih =>
    rw [unescape, ih, replaceAll_tilde, List.singleton_append, replaceAll_cons_of_ne (by simp)]
  | case4 c s hzero hone ih =>
    rw [unescape, ih, replaceAll_cons_of_ne, replaceAll_cons_of_ne]
    · exact fun hc => head?_replaceAll_ne (head?_ne_of_forall hzero hc)
    · exact head?_ne_of_forall hone
    · exact hzero
    · exact hone

/-! ## Texts in which every tilde is an escape -/

/-- Every tilde is followed by `0` or `1`. -/
def TildesEscaped (cs : List Char) : Prop :=
  ∀ i, cs[i]? = some '~' → cs[i + 1]? = some '0' ∨ cs[i + 1]? = some '1'

theorem tildesEscaped_nil : TildesEscaped [] := by
  intro i h
  cases h

theorem tildesEscaped_cons : TildesEscaped (c :: s) ↔
    (c = '~' → s.head? = some '0' ∨ s.head? = some '1') ∧ TildesEscaped s := by
  constructor
  · intro h
    refine ⟨fun hc => ?_, fun i hi => ?_⟩
    · have hfirst := h 0 (by rw [hc]; rfl)
      simpa [List.head?_eq_getElem?] using hfirst
    · exact h (i + 1) hi
  · rintro ⟨hc, hs⟩ i hi
    cases i with
    | zero =>
      have hfirst := hc (Option.some.inj hi)
      simpa [List.head?_eq_getElem?] using hfirst
    | succ i => exact hs i hi

/-- A character that is no tilde asks for nothing. -/
theorem tildesEscaped_cons_of_ne (hc : c ≠ '~') : TildesEscaped (c :: s) ↔ TildesEscaped s := by
  rw [tildesEscaped_cons, and_iff_right fun h => absurd h hc]

/-- An escaped tilde asks for nothing more. -/
theorem tildesEscaped_pair (hd : d = '0' ∨ d = '1') :
    TildesEscaped ('~' :: d :: s) ↔ TildesEscaped s := by
  have hne : d ≠ '~' := by rcases hd with rfl | rfl <;> decide
  rw [tildesEscaped_cons, tildesEscaped_cons_of_ne hne, and_iff_right]
  intro _
  rcases hd with rfl | rfl <;> simp

/-- Texts one after the other, where the second one does not complete an escape of the first. -/
theorem tildesEscaped_append (ht : t.head? ≠ some '0' ∧ t.head? ≠ some '1') :
    TildesEscaped (s ++ t) ↔ TildesEscaped s ∧ TildesEscaped t := by
  induction s with
  | nil => simp [tildesEscaped_nil]
  | cons c s ih =>
    rw [List.cons_append, tildesEscaped_cons, tildesEscaped_cons, ih, and_assoc]
    cases s with
    | nil => simp [ht]
    | cons d s => simp

/-- Segments after slashes, as texts. -/
theorem tildesEscaped_segments :
    TildesEscaped (ss.flatMap ('/' :: ·)) ↔ ∀ s ∈ ss, TildesEscaped s := by
  induction ss with
  | nil => simp [tildesEscaped_nil]
  | cons s ss ih =>
    have hhead : ∀ d, (ss.flatMap ('/' :: ·)).head? = some d → d = '/' := by
      cases ss <;> simp
    rw [List.flatMap_cons, List.cons_append, tildesEscaped_cons_of_ne (by decide),
      tildesEscaped_append, ih, List.forall_mem_cons]
    exact ⟨fun h => absurd (hhead _ h) (by decide), fun h => absurd (hhead _ h) (by decide)⟩

theorem tildesEscaped_escape (s : List Char) : TildesEscaped (escape s) := by
  induction s with
  | nil => exact tildesEscaped_nil
  | cons c s ih =>
    rw [escape]
    split
    · exact (tildesEscaped_pair (.inl rfl)).2 ih
    · split
      · exact (tildesEscaped_pair (.inr rfl)).2 ih
      · next htilde _ => exact (tildesEscaped_cons_of_ne htilde).2 ih

/-- What stands between slashes is written as it was if every tilde in it is an escape. -/
theorem escape_unescape (hslash : '/' ∉ s) (hs : TildesEscaped s) : escape (unescape s) = s := by
  induction s using unescape.induct with
  | case1 => rfl
  | case2 s ih =>
    rw [unescape, escape, if_pos rfl, ih (by simp_all) ((tildesEscaped_pair (.inl rfl)).1 hs)]
  | case3 s ih =>
    rw [unescape, escape, if_neg (by decide), if_pos rfl, ih (by simp_all)
      ((tildesEscaped_pair (.inr rfl)).1 hs)]
  | case4 c s hzero hone ih =>
    obtain ⟨hc, hrest⟩ := tildesEscaped_cons.1 hs
    have htilde : c ≠ '~' := fun h =>
      (hc h).elim (head?_ne_of_forall hzero h) (head?_ne_of_forall hone h)
    obtain ⟨hfirst, hmore⟩ := List.ne_and_not_mem_of_not_mem_cons hslash
    rw [unescape, escape, if_neg htilde, if_neg (Ne.symm hfirst), ih hmore hrest]
    · exact hzero
    · exact hone

/-! ## The written form -/

theorem tildesEscaped_render (p : Pointer) : TildesEscaped p.render.toList := by
  rw [render, String.toList_ofList, renderChars, tildesEscaped_cons_of_ne (by decide)]
  have hsegments : ∀ s ∈ p.segments.map fun s => escape s.toList, TildesEscaped s := by
    simp [tildesEscaped_escape]
  have hrest := tildesEscaped_segments.2 hsegments
  rwa [List.flatMap_map] at hrest

/-- A text that reads as a pointer is a mark and the pieces after slashes, which are the segments as
    they were written. -/
theorem parse?_eq_some {text : String} {p : Pointer} (h : parse? text = some p) :
    ∃ ss : List (List Char), text.toList = '#' :: ss.flatMap ('/' :: ·) ∧ (∀ s ∈ ss, '/' ∉ s) ∧
      p.segments = ss.map fun s => String.ofList (unescape s) := by
  unfold parse? at h
  split at h
  · next htext =>
    cases h
    exact ⟨[], htext, by simp, rfl⟩
  · next rest htext =>
    cases h
    refine ⟨_, by rw [htext, Text.flatMap_pieces], fun s hs hmem => ?_, rfl⟩
    exact absurd (Text.uncut_of_mem_pieces hs '/' hmem) (by decide)
  · cases h

/-- A pointer reads back as itself, and no other is written like it. A text that reads as a pointer
    is what this pointer is written as exactly if every tilde in it is an escape. -/
theorem written_form_exact (p : Pointer) (text : String) :
    parse? p.render = some p ∧ (∀ q : Pointer, q.render = p.render → q = p) ∧
      (parse? text = some p → (p.render = text ↔ TildesEscaped text.toList)) := by
  refine ⟨parse?_render p, fun q hq => ?_, fun h => ⟨?_, fun htext => ?_⟩⟩
  · have hread := parse?_render q
    rw [hq, parse?_render p] at hread
    exact (Option.some.inj hread).symm
  · rintro rfl
    exact tildesEscaped_render p
  · obtain ⟨ss, hss, hslash, hsegments⟩ := parse?_eq_some h
    rw [hss, tildesEscaped_cons_of_ne (by decide), tildesEscaped_segments] at htext
    rw [← String.toList_inj, hss, render, String.toList_ofList, renderChars, hsegments,
      List.flatMap_map]
    refine congrArg ('#' :: ·) (List.flatMap_congr fun s hs => ?_)
    rw [String.toList_ofList, escape_unescape (hslash s hs) (htext s hs)]

/-- A tilde before a slash or at the end is read as one and is no escape. -/
theorem written_form_exact_looseTildes :
    render ⟨["~1"]⟩ ≠ render ⟨["/"]⟩ ∧
      parse? "#/~01/~~1/a~" = some ⟨["~1", "~/", "a~"]⟩ ∧
      ¬ TildesEscaped "#/~01/~~1/a~".toList := by
  have hread : parse? "#/~01/~~1/a~" = some ⟨["~1", "~/", "a~"]⟩ := by decide
  refine ⟨fun h => ?_, hread, fun h => ?_⟩
  · exact absurd ((written_form_exact ⟨["/"]⟩ "#").2.1 _ h) (by decide)
  · exact absurd (((written_form_exact _ _).2.2 hread).2 h) (by decide)

end ApiModel.Pointer
