/-
  ApiModel.Proofs.Text.Natural

  The texts that are read as a natural number: its decimal, after any number of zeros, and all this
  after at most one plus sign. A number is read back from its decimal, but not from it alone.
-/
import ApiModel.Text.Natural
import Mathlib.Data.List.Induction

namespace ApiModel.Text

/-! ## Digits -/

theorem digitValue?_of_isDigit {c : Char} (hc : c.isDigit) :
    digitValue? c = some (c.toNat - '0'.toNat) := by
  have hrange : '0' ≤ c ∧ c ≤ '9' := by
    rw [Char.isDigit_iff_toNat] at hc
    exact ⟨hc.1, hc.2⟩
  rw [digitValue?, if_pos hrange]

theorem digitValue?_of_not_isDigit {c : Char} (hc : ¬ c.isDigit) : digitValue? c = none := by
  have hrange : ¬ ('0' ≤ c ∧ c ≤ '9') := fun h => hc (Char.isDigit_iff_toNat.2 ⟨h.1, h.2⟩)
  rw [digitValue?, if_neg hrange]

/-- Only runs of digits have a value, and it is that of their decimal. -/
theorem digitsValue?_eq_some_iff {cs : List Char} {n : Nat} :
    digitsValue? cs = some n ↔ (∀ c ∈ cs, c.isDigit) ∧ Nat.ofDigitChars 10 cs 0 = n := by
  let add (acc : Option Nat) (c : Char) : Option Nat := do
    return 10 * (← acc) + (← digitValue? c)
  -- what is not a number stays so
  have hnone : ∀ cs : List Char, cs.foldl add none = none := by
    intro cs
    induction cs with
    | nil => rfl
    | cons c cs ih => exact ih
  have hfold : ∀ (cs : List Char) (m : Nat), cs.foldl add (some m) = some n ↔
      (∀ c ∈ cs, c.isDigit) ∧ Nat.ofDigitChars 10 cs m = n := by
    intro cs
    induction cs with
    | nil => simp [Nat.ofDigitChars_nil]
    | cons c cs ih =>
        intro m
        rw [List.foldl_cons, Nat.ofDigitChars_cons, List.forall_mem_cons]
        by_cases hc : c.isDigit
        · have hadd : add (some m) c = some (10 * m + (c.toNat - '0'.toNat)) := by
            simp [add, digitValue?_of_isDigit hc]
          rw [hadd, ih, and_iff_right hc]
        · have hadd : add (some m) c = none := by
            simp [add, digitValue?_of_not_isDigit hc]
          simp [hadd, hnone, hc]
  exact hfold cs 0

theorem toNat_sub_lt_ten {c : Char} (hc : c.isDigit) : c.toNat - '0'.toNat < 10 :=
  Nat.lt_succ_of_le (Nat.sub_le_sub_right (Char.isDigit_iff_toNat.1 hc).2 _)

theorem digitChar_of_isDigit {c : Char} (hc : c.isDigit) :
    (c.toNat - '0'.toNat).digitChar = c := by
  apply Char.toNat_inj.1
  rw [Nat.toNat_digitChar_of_lt_ten (toNat_sub_lt_ten hc)]
  exact Nat.add_sub_cancel' (Char.isDigit_iff_toNat.1 hc).1

/-- A run of digits is the decimal of its value after some zeros. -/
theorem eq_replicate_append_toDigits {cs : List Char} (hcs : cs ≠ [])
    (hdigits : ∀ c ∈ cs, c.isDigit) :
    ∃ zeros, cs = List.replicate zeros '0' ++ Nat.toDigits 10 (Nat.ofDigitChars 10 cs 0) := by
  -- from the right, since the value of the last digit is what is added last
  induction cs using List.reverseRecOn with
  | nil => exact absurd rfl hcs
  | append_singleton ds d ih =>
      have hd : d.isDigit := hdigits d (by simp)
      have hds : ∀ c ∈ ds, c.isDigit := fun c h => hdigits c (List.mem_append_left _ h)
      have hlast : Nat.toDigits 10 (d.toNat - '0'.toNat) = [d] := by
        rw [Nat.toDigits_of_lt_base (toNat_sub_lt_ten hd), digitChar_of_isDigit hd]
      rw [Nat.ofDigitChars_append, Nat.ofDigitChars_cons, Nat.ofDigitChars_nil]
      rcases eq_or_ne ds [] with rfl | hne
      · exact ⟨0, by simpa using hlast.symm⟩
      obtain ⟨zeros, hzeros⟩ := ih hne hds
      rcases Nat.eq_zero_or_pos (Nat.ofDigitChars 10 ds 0) with hzero | hpos
      · refine ⟨zeros + 1, ?_⟩
        rw [hzero, Nat.toDigits_zero] at hzeros
        rw [hzero, Nat.mul_zero, Nat.zero_add, hlast, List.replicate_succ', ← hzeros]
      · refine ⟨zeros, ?_⟩
        rw [← Nat.toDigits_append_toDigits (by decide) hpos (toNat_sub_lt_ten hd), hlast,
          ← List.append_assoc, ← hzeros]

/-! ## Numbers -/

/-- The characters write `n`: in decimal, after zeros and a plus sign, both of which may be
    missing. -/
def Writes (n : Nat) (cs : List Char) : Prop :=
  ∃ sign zeros, (sign = [] ∨ sign = ['+']) ∧
    cs = sign ++ (List.replicate zeros '0' ++ Nat.toDigits 10 n)

theorem writes_decimal (n : Nat) : Writes n (decimal n).toList :=
  ⟨[], 0, .inl rfl, by simp [decimal]⟩

theorem writes_of_digits {cs sign : List Char} (hsign : sign = [] ∨ sign = ['+'])
    (hcs : cs ≠ []) {n : Nat} (h : digitsValue? cs = some n) : Writes n (sign ++ cs) := by
  obtain ⟨hdigits, rfl⟩ := digitsValue?_eq_some_iff.1 h
  obtain ⟨zeros, hzeros⟩ := eq_replicate_append_toDigits hcs hdigits
  exact ⟨sign, zeros, hsign, congrArg (sign ++ ·) hzeros⟩

theorem digitsValue?_replicate_append (n zeros : Nat) :
    digitsValue? (List.replicate zeros '0' ++ Nat.toDigits 10 n) = some n := by
  refine digitsValue?_eq_some_iff.2 ⟨?_, ?_⟩
  · intro c hc
    rcases List.mem_append.1 hc with hc | hc
    · rw [List.eq_of_mem_replicate hc]
      rfl
    · exact Nat.isDigit_of_mem_toDigits (by decide) (by decide) hc
  · rw [Nat.ofDigitChars_append, Nat.ofDigitChars_replicate_zero, Nat.mul_zero,
      Nat.ofDigitChars_ten_toDigits]

/-- The characters of a number are digits, but for a sign. -/
theorem Writes.isDigit {n : Nat} {cs : List Char} (h : Writes n cs) {c : Char} (hc : c ∈ cs) :
    c.isDigit ∨ c = '+' := by
  obtain ⟨sign, zeros, hsign, rfl⟩ := h
  rcases List.mem_append.1 hc with hc | hc
  · rcases hsign with rfl | rfl
    · cases hc
    · exact .inr (List.mem_singleton.1 hc)
  · exact .inl ((digitsValue?_eq_some_iff.1 (digitsValue?_replicate_append n zeros)).1 c hc)

/-- What is read of the text after the sign. -/
theorem natural?_digits {bound n : Nat} {digits : List Char} :
    (do
      if digits.isEmpty then none
      let n ← digitsValue? digits
      if n < bound then some n else none : Option Nat) = some n ↔
      n < bound ∧ digits ≠ [] ∧ digitsValue? digits = some n := by
  cases digits with
  | nil => simp
  | cons d ds =>
      cases digitsValue? (d :: ds) with
      | none => simp
      | some v => grind

/-- A text is read as the number that it writes, and as no other. -/
theorem natural?_eq_some_iff {bound n : Nat} {cs : List Char} :
    natural? bound cs = some n ↔ n < bound ∧ Writes n cs := by
  unfold natural?
  constructor
  · intro h
    split at h
    · obtain ⟨hn, hne, hvalue⟩ := natural?_digits.1 h
      exact ⟨hn, writes_of_digits (.inr rfl) hne hvalue⟩
    · obtain ⟨hn, hne, hvalue⟩ := natural?_digits.1 h
      exact ⟨hn, writes_of_digits (.inl rfl) hne hvalue⟩
  · rintro ⟨hn, sign, zeros, hsign, rfl⟩
    have hvalue := digitsValue?_replicate_append n zeros
    have hne : List.replicate zeros '0' ++ Nat.toDigits 10 n ≠ [] := by
      simp [Nat.toDigits_ne_nil]
    rcases hsign with rfl | rfl
    · split
      · next rest heq =>
          -- a digit is no sign
          have hplus := (digitsValue?_eq_some_iff.1 hvalue).1 '+' (by simp_all)
          cases hplus
      · exact natural?_digits.2 ⟨hn, hne, hvalue⟩
    · exact natural?_digits.2 ⟨hn, hne, hvalue⟩

theorem Writes.unique {m n : Nat} {cs : List Char} (hm : Writes m cs) (hn : Writes n cs) :
    m = n := by
  have hm : natural? (m + n + 1) cs = some m := natural?_eq_some_iff.2 ⟨by omega, hm⟩
  have hn : natural? (m + n + 1) cs = some n := natural?_eq_some_iff.2 ⟨by omega, hn⟩
  exact Option.some.inj (hm.symm.trans hn)

/-- A number written in decimal reads back as itself, if it is read at all. -/
theorem eq_of_natural?_decimal {bound i j : Nat}
    (h : natural? bound (decimal i).toList = some j) : j = i :=
  (natural?_eq_some_iff.1 h).2.unique (writes_decimal i)

end ApiModel.Text
