import Mathlib.Data.List.TakeWhile
import MipsAssembler.Proofs.Numeral.Digits
import MipsAssembler.Source.Literal

/-!
# Spellings of numbers

A well-formed literal has digits of its base, and the marker that belongs to
the base.  Taking its spelling apart gives the literal back, so reading the
spelling gives its value.
-/

namespace MipsAssembler

/-- The base is marked in this way. -/
inductive Radix.MarkedBy : Radix → List Char → Prop
  | decimal : MarkedBy .decimal []
  | hexadecimal : MarkedBy .hexadecimal ['0', 'x']
  | upperHexadecimal : MarkedBy .hexadecimal ['0', 'X']
  | binary : MarkedBy .binary ['0', 'b']
  | upperBinary : MarkedBy .binary ['0', 'B']

theorem Radix.toNat_of_isDigit {radix : Radix} {character : Char}
    (digit : radix.isDigit character = true) :
    0x30 ≤ character.toNat ∧ character.toNat ≤ 0x39 ∨
      radix = .hexadecimal ∧
        (0x61 ≤ character.toNat ∧ character.toNat ≤ 0x66 ∨
          0x41 ≤ character.toNat ∧ character.toNat ≤ 0x46) := by
  have range (first last : Char) : first ≤ character ∧ character ≤ last ↔
      first.toNat ≤ character.toNat ∧ character.toNat ≤ last.toNat := by
    simp only [Char.le_def, UInt32.le_iff_toNat_le]
    rfl
  obtain ⟨digitValue, found⟩ := Option.isSome_iff_exists.mp digit
  obtain ⟨found, small⟩ := Option.filter_eq_some_iff.mp found
  rw [decide_eq_true_iff] at small
  simp only [hexadecimalValue?, range, Char.reduceToNat] at found
  split at found
  · exact .inl ‹_›
  -- A letter denotes at least ten, so it is a digit of base sixteen only.
  have isHexadecimal : 10 ≤ digitValue → radix = .hexadecimal := by
    intro large
    cases radix with
    | hexadecimal => rfl
    | binary | decimal => simp only [base] at small; omega
  split at found
  · obtain rfl := Option.some.inj found
    exact .inr ⟨isHexadecimal (Nat.le_add_left ..), .inl ‹_›⟩
  split at found
  · obtain rfl := Option.some.inj found
    exact .inr ⟨isHexadecimal (Nat.le_add_left ..), .inr ‹_›⟩
  · cases found

namespace Literal

/-- There are digits, all of them of the base, and the base is marked. -/
structure IsWellFormed (literal : Literal) : Prop where
  marked : literal.radix.MarkedBy literal.marker
  digits_ne_nil : literal.digits ≠ []
  isDigit : ∀ character ∈ literal.digits,
    literal.radix.isDigit character = true

theorem ofUnsigned_decimal {isNegative : Bool} {digits : List Char}
    (isDigit : ∀ character ∈ digits, Radix.decimal.isDigit character = true) :
    ofUnsigned isNegative digits = ⟨isNegative, [], .decimal, digits⟩ := by
  unfold ofUnsigned
  split
  · exact absurd (isDigit 'x' (by simp)) (by decide)
  · exact absurd (isDigit 'X' (by simp)) (by decide)
  · exact absurd (isDigit 'b' (by simp)) (by decide)
  · exact absurd (isDigit 'B' (by simp)) (by decide)
  · rfl

theorem ofUnsigned_marker_append {isNegative : Bool} {radix : Radix}
    {marker digits : List Char} (marked : radix.MarkedBy marker)
    (isDigit : ∀ character ∈ digits, radix.isDigit character = true) :
    ofUnsigned isNegative (marker ++ digits) =
      ⟨isNegative, marker, radix, digits⟩ := by
  cases marked with
  | decimal => exact ofUnsigned_decimal isDigit
  | _ => rfl

theorem check_eq_ok_iff {literal : Literal} {number : Int} :
    literal.check = .ok number ↔
      literal.digits ≠ [] ∧
        (∀ character ∈ literal.digits,
          literal.radix.isDigit character = true) ∧
        Fits literal.value ∧ literal.value = number := by
  have allDigits : literal.digits.dropWhile literal.radix.isDigit = [] ↔
      ∀ character ∈ literal.digits,
        literal.radix.isDigit character = true :=
    List.dropWhile_eq_nil_iff
  unfold check
  split
  · next foreign rest dropped =>
    rw [dropped] at allDigits
    constructor
    · intro refused
      cases refused
    · rintro ⟨-, isDigit, -⟩
      cases allDigits.mpr isDigit
  · next dropped =>
    have isDigit := allDigits.mp dropped
    constructor
    · intro accepted
      split at accepted
      · next good => exact ⟨good.1, isDigit, good.2, Except.ok.inj accepted⟩
      · cases accepted
    · rintro ⟨nonempty, -, fits, rfl⟩
      exact if_pos ⟨nonempty, fits⟩

namespace IsWellFormed

variable {literal : Literal}

/-- Without its sign, a spelling begins with a decimal digit. -/
theorem exists_cons (formed : literal.IsWellFormed) :
    ∃ first rest, literal.marker ++ literal.digits = first :: rest ∧
      first.isDigit = true := by
  obtain ⟨isNegative, marker, radix, digits⟩ := literal
  obtain ⟨marked, nonempty, isDigit⟩ := formed
  cases marked with
  | decimal =>
      cases digits with
      | nil => exact absurd rfl nonempty
      | cons first rest =>
          refine ⟨first, rest, rfl, Char.isDigit_iff_toNat.mpr ?_⟩
          rcases Radix.toNat_of_isDigit (isDigit first List.mem_cons_self)
            with bounds | ⟨different, -⟩
          · exact bounds
          · cases different
  | _ => exact ⟨'0', _, rfl, rfl⟩

theorem ofSpelling_spelling (formed : literal.IsWellFormed) :
    ofSpelling literal.spelling = literal := by
  obtain ⟨first, rest, consEq, digit⟩ := formed.exists_cons
  have taken := fun isNegative => @ofUnsigned_marker_append isNegative _ _ _
    formed.marked formed.isDigit
  obtain ⟨isNegative, marker, radix, digits⟩ := literal
  cases isNegative with
  | true => exact taken true
  | false =>
      simp only [spelling, lead, Bool.false_eq_true, if_false, ofSpelling]
      split
      · next unsigned signed =>
        rw [consEq, List.cons.injEq] at signed
        rw [signed.1] at digit
        cases digit
      · exact taken false

/-- Reading the spelling of a literal gives its value. -/
theorem read_spelling (formed : literal.IsWellFormed)
    (fits : Fits literal.value) : read literal.spelling = .ok literal.value := by
  rw [read, formed.ofSpelling_spelling]
  exact check_eq_ok_iff.mpr
    ⟨formed.digits_ne_nil, formed.isDigit, fits, rfl⟩

end IsWellFormed

/-! ## Accepted spellings -/

theorem markedBy_ofSpelling (characters : List Char) :
    (ofSpelling characters).radix.MarkedBy (ofSpelling characters).marker := by
  have unsigned : ∀ isNegative digits,
      (ofUnsigned isNegative digits).radix.MarkedBy
        (ofUnsigned isNegative digits).marker := by
    intro isNegative digits
    unfold ofUnsigned
    split <;> constructor
  unfold ofSpelling
  split
  · exact unsigned true _
  · exact unsigned false _

/-- Reading accepts the spellings of well-formed literals whose values fit a
word, and nothing else. -/
theorem read_eq_ok_iff {characters : List Char} {number : Int} :
    read characters = .ok number ↔
      ∃ literal : Literal, literal.IsWellFormed ∧ Fits literal.value ∧
        literal.spelling = characters ∧ literal.value = number := by
  constructor
  · intro accepted
    obtain ⟨nonempty, isDigit, fits, valueEq⟩ := check_eq_ok_iff.mp accepted
    exact ⟨ofSpelling characters,
      ⟨markedBy_ofSpelling characters, nonempty, isDigit⟩, fits,
      spelling_ofSpelling characters, valueEq⟩
  · rintro ⟨literal, formed, fits, rfl, rfl⟩
    exact formed.read_spelling fits

/-! ## Canonical literals -/

/-- The literal with the canonical decimal spelling of an integer. -/
def ofInt (number : Int) : Literal where
  isNegative := number < 0
  marker := []
  radix := .decimal
  digits := Radix.decimal.digits number.natAbs

theorem ofInt_isWellFormed (number : Int) : (ofInt number).IsWellFormed where
  marked := .decimal
  digits_ne_nil := Radix.digits_ne_nil _
  isDigit := Radix.isDigit_of_mem_digits

theorem spelling_ofInt (number : Int) :
    (ofInt number).spelling = Decimal.characters number := by
  by_cases negative : number < 0 <;>
    simp [ofInt, spelling, lead, Decimal.characters, negative]

theorem value_ofInt (number : Int) : (ofInt number).value = number := by
  simp only [value, ofInt, Radix.value_digits, decide_eq_true_eq]
  split <;> omega

end Literal

end MipsAssembler
