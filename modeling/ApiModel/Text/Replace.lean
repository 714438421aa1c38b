/-
  ApiModel.Text.Replace

  Replacing every occurrence of a text by another: occurrences are found from the left and do not
  overlap, and what replaces them is not looked at again.
-/

namespace ApiModel.Text

/-- Replace the occurrences of `pattern`, passing over `skip` characters first. -/
def replaceFrom (pattern replacement : List Char) : Nat → List Char → List Char
  | _, [] => []
  | skip + 1, _ :: rest => replaceFrom pattern replacement skip rest
  | 0, c :: rest =>
    if pattern.isPrefixOf (c :: rest) then
      replacement ++ replaceFrom pattern replacement (pattern.length - 1) rest
    else c :: replaceFrom pattern replacement 0 rest

/-- Replace every occurrence of a pattern that is not empty. -/
def replaceAll (pattern replacement : List Char) (cs : List Char) : List Char :=
  replaceFrom pattern replacement 0 cs

variable {pattern replacement cs : List Char} {x c : Char}

@[simp] theorem replaceAll_nil (pattern replacement : List Char) :
    replaceAll pattern replacement [] = [] := rfl

theorem replaceFrom_append (skipped rest : List Char) :
    replaceFrom pattern replacement skipped.length (skipped ++ rest) =
      replaceAll pattern replacement rest := by
  induction skipped with
  | nil => rfl
  | cons c skipped ih => exact ih

/-- An occurrence is replaced where it stands. -/
theorem replaceAll_append (pattern rest : List Char) :
    replaceAll (x :: pattern) replacement (x :: pattern ++ rest) =
      replacement ++ replaceAll (x :: pattern) replacement rest := by
  have hpre : (x :: pattern).isPrefixOf (x :: (pattern ++ rest)) = true := by simp
  rw [← replaceFrom_append pattern rest, List.cons_append, replaceAll, replaceFrom, if_pos hpre]
  rfl

/-- Where no occurrence stands a character is passed over. -/
theorem replaceAll_cons (h : ¬ pattern <+: c :: cs) :
    replaceAll pattern replacement (c :: cs) = c :: replaceAll pattern replacement cs := by
  rw [← List.isPrefixOf_iff_prefix] at h
  rw [replaceAll, replaceFrom, if_neg h]
  rfl

end ApiModel.Text
