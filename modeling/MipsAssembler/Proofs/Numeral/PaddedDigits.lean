import Mathlib.Algebra.Group.Nat.Defs
import MipsAssembler.Proofs.Numeral.Digits

/-!
# Numerals of a fixed width

Zeros in front of a numeral leave its value alone.  A number that has no more
digits than the width is written with exactly that many, in lower case.
-/

namespace MipsAssembler.Radix

variable {radix : Radix} {width number : Nat}

/-! ## Zeros in front -/

theorem digitValue?_zero : radix.digitValue? '0' = some 0 := by
  cases radix <;> decide

theorem value_zero_cons (digits : List Char) :
    radix.value ('0' :: digits) = radix.value digits := by
  rw [value, List.foldl_cons, digitValue?_zero, Option.getD_some, Nat.zero_mul,
    value]

theorem value_replicate_zero_append (count : Nat) (digits : List Char) :
    radix.value (List.replicate count '0' ++ digits) = radix.value digits := by
  induction count with
  | zero => rfl
  | succ count ih =>
      rw [List.replicate_succ, List.cons_append, value_zero_cons, ih]

/-- The zeros in front are digits as well. -/
theorem exists_digitChar_of_mem_paddedDigits {character : Char}
    (member : character ∈ radix.paddedDigits width number) :
    ∃ digit < radix.base, character = digit.digitChar := by
  rcases List.mem_append.mp member with padding | digit
  · exact ⟨0, radix.base_pos, List.eq_of_mem_replicate padding⟩
  · exact exists_digitChar_of_mem_digits digit

theorem isDigit_of_mem_paddedDigits :
    ∀ character ∈ radix.paddedDigits width number,
      radix.isDigit character = true := by
  intro character member
  obtain ⟨digit, small, rfl⟩ := exists_digitChar_of_mem_paddedDigits member
  exact isDigit_digitChar small

theorem read?_paddedDigits :
    radix.read? (radix.paddedDigits width number) = some number := by
  have nonempty : radix.paddedDigits width number ≠ [] :=
    List.append_ne_nil_of_right_ne_nil _ (digits_ne_nil number)
  rw [read?, if_pos ⟨nonempty, List.all_eq_true.mpr isDigit_of_mem_paddedDigits⟩,
    paddedDigits, value_replicate_zero_append, value_digits]

/-! ## The width and the letter case -/

theorem length_paddedDigits (positive : 0 < width)
    (fits : number < radix.base ^ width) :
    (radix.paddedDigits width number).length = width := by
  have short : (radix.digits number).length ≤ width :=
    (Nat.length_toDigits_le_iff radix.one_lt_base positive).mpr fits
  rw [paddedDigits, List.length_append, List.length_replicate]
  omega

theorem toLower_digitChar {digit : Nat} (small : digit < radix.base) :
    digit.digitChar.toLower = digit.digitChar := by
  have table : ∀ radix : Radix, ∀ digit < radix.base,
      digit.digitChar.toLower = digit.digitChar := by
    rintro (_ | _ | _) <;> decide
  exact table radix digit small

theorem toLower_of_mem_paddedDigits :
    ∀ character ∈ radix.paddedDigits width number,
      character.toLower = character := by
  intro character member
  obtain ⟨digit, small, rfl⟩ := exists_digitChar_of_mem_paddedDigits member
  exact toLower_digitChar small

/-- The text is a numeral of the number with the given count of digits, none of
them a capital letter. -/
structure Spells (radix : Radix) (width : Nat) (text : String) (number : Nat) :
    Prop where
  length : text.length = width
  toLower : ∀ character ∈ text.toList, character.toLower = character
  read? : radix.read? text.toList = some number

theorem spells_writePadded (positive : 0 < width)
    (fits : number < radix.base ^ width) :
    radix.Spells width (radix.writePadded width number) number := by
  constructor
  · rw [writePadded, String.length_ofList]
    exact length_paddedDigits positive fits
  · rw [writePadded, String.toList_ofList]
    exact toLower_of_mem_paddedDigits
  · rw [writePadded, String.toList_ofList]
    exact read?_paddedDigits

/-- Every character of a numeral is a digit. -/
theorem Spells.isDigit {text : String}
    (spells : radix.Spells width text number) :
    ∀ character ∈ text.toList, radix.isDigit character = true := by
  have read := spells.read?
  unfold Radix.read? at read
  split at read
  · next digits => exact List.all_eq_true.mp digits.2
  · cases read

end MipsAssembler.Radix
