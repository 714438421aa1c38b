/-
  ApiModel.Text.Pieces

  Cutting a text at certain characters: the pieces between them, at least one, without the cuts.
  Pointers are cut at slashes and names at their separators.
-/

namespace ApiModel.Text

/-- The pieces of a text between the characters at which it is cut, at least one. -/
def pieces (isCut : Char → Bool) : List Char → List (List Char)
  | [] => [[]]
  | c :: rest =>
    if isCut c then [] :: pieces isCut rest
    else
      match pieces isCut rest with
      | [] => [[c]]
      | piece :: more => (c :: piece) :: more

variable {isCut : Char → Bool}

/-- A text without a cut is one piece. -/
theorem pieces_of_uncut {s : List Char} (h : ∀ c ∈ s, isCut c = false) : pieces isCut s = [s] := by
  induction s with
  | nil => rfl
  | cons c r ih =>
    simp only [List.mem_cons, forall_eq_or_imp] at h
    simp [pieces, h.1, ih h.2]

/-- A cut ends the piece before it. -/
theorem pieces_append_cut {s : List Char} (h : ∀ c ∈ s, isCut c = false) {x : Char}
    (hx : isCut x = true) (t : List Char) :
    pieces isCut (s ++ x :: t) = s :: pieces isCut t := by
  induction s with
  | nil => simp [pieces, hx]
  | cons c r ih =>
    simp only [List.mem_cons, forall_eq_or_imp] at h
    simp [pieces, h.1, ih h.2]

/-- No piece has a cut. -/
theorem uncut_of_mem_pieces {s cs : List Char} (h : s ∈ pieces isCut cs) :
    ∀ c ∈ s, isCut c = false := by
  induction cs generalizing s with
  | nil => simp_all [pieces]
  | cons c r ih =>
    rw [pieces] at h
    split at h
    · rcases List.mem_cons.1 h with rfl | h
      · simp
      · exact ih h
    · next hc =>
      split at h
      · simp_all
      · next piece more hpieces =>
        rw [hpieces] at ih
        rcases List.mem_cons.1 h with rfl | h
        · simpa [hc] using ih List.mem_cons_self
        · exact ih (List.mem_cons_of_mem piece h)

/-- The pieces, each after a cut, make up the text after a cut. -/
theorem flatMap_pieces (x : Char) (cs : List Char) :
    (pieces (· == x) cs).flatMap (x :: ·) = x :: cs := by
  induction cs with
  | nil => rfl
  | cons c r ih =>
    rw [pieces]
    split
    · next hc => simp_all
    · split
      · next hpieces => simp [hpieces] at ih
      · next hpieces => simp_all

end ApiModel.Text
