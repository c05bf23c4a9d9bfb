import MipsAssembler.Numeral.Decimal

/-!
# Writing and reading numbers

The digits that are written for a number denote it again, in each of the three
bases, and so does the canonical decimal text of an integer.
-/

namespace MipsAssembler

/-! ## Natural numbers -/

namespace Radix

variable {radix : Radix}

theorem base_pos (radix : Radix) : 0 < radix.base :=
  Nat.lt_trans Nat.zero_lt_one radix.one_lt_base

theorem digitValue?_digitChar {digit : Nat} (small : digit < radix.base) :
    radix.digitValue? digit.digitChar = some digit := by
  have table : ∀ radix : Radix, ∀ digit < radix.base,
      radix.digitValue? digit.digitChar = some digit := by
    rintro (_ | _ | _) <;> decide
  exact table radix digit small

theorem value_append_singleton (digits : List Char) (last : Char) :
    radix.value (digits ++ [last]) =
      radix.value digits * radix.base + (radix.digitValue? last).getD 0 := by
  rw [value, List.foldl_append]
  rfl

/-- Digits that follow never make a number smaller. -/
theorem value_le_value_append (before digits : List Char) :
    radix.value before ≤ radix.value (before ++ digits) := by
  induction digits generalizing before with
  | nil => simp
  | cons character digits ih =>
      have step : radix.value before ≤ radix.value (before ++ [character]) := by
        rw [value_append_singleton]
        exact Nat.le_add_right_of_le
          (Nat.le_mul_of_pos_right _ radix.base_pos)
      rw [List.append_cons]
      exact Nat.le_trans step (ih _)

theorem digits_of_lt {number : Nat} (small : number < radix.base) :
    radix.digits number = [number.digitChar] :=
  Nat.toDigits_of_lt_base small

theorem digits_of_le {number : Nat} (large : radix.base ≤ number) :
    radix.digits number =
      radix.digits (number / radix.base) ++
        [(number % radix.base).digitChar] :=
  Nat.toDigits_of_base_le radix.one_lt_base large

theorem digits_ne_nil (number : Nat) : radix.digits number ≠ [] :=
  Nat.toDigits_ne_nil

theorem digits_induction {motive : Nat → List Char → Prop}
    (single : ∀ digit < radix.base, motive digit [digit.digitChar])
    (append : ∀ number > 0, ∀ digit < radix.base,
      motive number (radix.digits number) →
      motive (number * radix.base + digit)
        (radix.digits number ++ [digit.digitChar]))
    (number : Nat) : motive number (radix.digits number) := by
  induction number using Nat.strongRecOn with
  | ind number ih =>
      by_cases small : number < radix.base
      · rw [digits_of_lt small]
        exact single number small
      · have large : radix.base ≤ number := Nat.not_lt.mp small
        have positive := radix.base_pos
        have shorter : number / radix.base < number :=
          Nat.div_lt_self (Nat.lt_of_lt_of_le positive large)
            radix.one_lt_base
        have extended := append _ (Nat.div_pos large positive) _
          (Nat.mod_lt number positive) (ih _ shorter)
        rwa [Nat.div_add_mod', ← digits_of_le large] at extended

theorem value_digits (number : Nat) :
    radix.value (radix.digits number) = number := by
  induction number using digits_induction with
  | single digit small =>
      rw [← List.nil_append [_], value_append_singleton,
        digitValue?_digitChar small]
      simp [value]
  | append number _ digit small ih =>
      rw [value_append_singleton, ih, digitValue?_digitChar small]
      rfl

theorem exists_digitChar_of_mem_digits {number : Nat} {character : Char}
    (member : character ∈ radix.digits number) :
    ∃ digit < radix.base, character = digit.digitChar := by
  induction number using @digits_induction radix with
  | single digit small => exact ⟨digit, small, List.mem_singleton.mp member⟩
  | append number _ digit small ih =>
      rcases List.mem_append.mp member with earlier | last
      · exact ih earlier
      · exact ⟨digit, small, List.mem_singleton.mp last⟩

theorem isDigit_digitChar {digit : Nat} (small : digit < radix.base) :
    radix.isDigit digit.digitChar = true := by
  rw [isDigit, digitValue?_digitChar small]
  rfl

theorem isDigit_of_mem_digits {number : Nat} :
    ∀ character ∈ radix.digits number, radix.isDigit character = true := by
  intro character member
  obtain ⟨digit, small, rfl⟩ := exists_digitChar_of_mem_digits member
  exact isDigit_digitChar small

/-- No zero stands in front of another digit. -/
theorem head?_digits_ne_zero {number : Nat} (positive : 0 < number) :
    (radix.digits number).head? ≠ some '0' := by
  have digitChar_ne_zero : ∀ radix : Radix, ∀ digit < radix.base, 0 < digit →
      digit.digitChar ≠ '0' := by
    rintro (_ | _ | _) <;> decide
  induction number using @digits_induction radix with
  | single digit small =>
      intro zero
      exact digitChar_ne_zero radix digit small positive (Option.some.inj zero)
  | append number numberPositive digit small ih =>
      obtain ⟨first, rest, digitsEq⟩ :=
        List.exists_cons_of_ne_nil (digits_ne_nil number)
      rw [digitsEq] at ih ⊢
      exact ih numberPositive

theorem read?_digits (number : Nat) :
    radix.read? (radix.digits number) = some number := by
  rw [read?, if_pos, value_digits]
  exact ⟨digits_ne_nil number,
    List.all_eq_true.mpr isDigit_of_mem_digits⟩

end Radix

/-! ## Integers -/

namespace Decimal

/-- A list of digits has no sign. -/
theorem read?_of_isDigit {digits : List Char}
    (areDigits : ∀ character ∈ digits, Radix.decimal.isDigit character = true) :
    read? digits = (Radix.decimal.read? digits).map Nat.cast := by
  unfold read?
  split
  · exact absurd (areDigits '-' List.mem_cons_self) (by decide)
  · exact absurd (areDigits '+' List.mem_cons_self) (by decide)
  · rfl

theorem read?_characters (number : Int) :
    read? (characters number) = some number := by
  by_cases negative : number < 0
  · rw [characters, if_pos negative, read?, Radix.read?_digits, Option.map_some,
      Option.some.injEq]
    omega
  · rw [characters, if_neg negative,
      read?_of_isDigit Radix.isDigit_of_mem_digits,
      Radix.read?_digits, Option.map_some, Option.some.injEq]
    omega

end Decimal

end MipsAssembler
