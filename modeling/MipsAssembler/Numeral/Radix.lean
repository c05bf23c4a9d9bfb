/-!
# Numerals in base two, ten and sixteen

Digits are read in either letter case and written in lower case, the most
significant one first.
-/

namespace MipsAssembler

/-- The bases in which numbers are read and written. -/
inductive Radix
  | binary
  | decimal
  | hexadecimal
  deriving DecidableEq

namespace Radix

def base : Radix → Nat
  | binary => 2
  | decimal => 10
  | hexadecimal => 16

theorem one_lt_base (radix : Radix) : 1 < radix.base := by
  cases radix <;> decide

/-! ## Reading -/

/-- The value of a hexadecimal digit of either letter case. -/
def hexadecimalValue? (character : Char) : Option Nat :=
  if '0' ≤ character ∧ character ≤ '9' then
    some (character.toNat - '0'.toNat)
  else if 'a' ≤ character ∧ character ≤ 'f' then
    some (character.toNat - 'a'.toNat + 10)
  else if 'A' ≤ character ∧ character ≤ 'F' then
    some (character.toNat - 'A'.toNat + 10)
  else
    none

/-- The value of a character as a digit of the base, if it is one. -/
def digitValue? (radix : Radix) (character : Char) : Option Nat :=
  (hexadecimalValue? character).filter (· < radix.base)

def isDigit (radix : Radix) (character : Char) : Bool :=
  (radix.digitValue? character).isSome

/-- The number that a list of digits denotes; a foreign character counts as
the digit zero. -/
def value (radix : Radix) (digits : List Char) : Nat :=
  digits.foldl
    (fun total character =>
      total * radix.base + (radix.digitValue? character).getD 0) 0

/-- Read a nonempty list of digits that holds no foreign character. -/
def read? (radix : Radix) (digits : List Char) : Option Nat :=
  if digits ≠ [] ∧ digits.all radix.isDigit then
    some (radix.value digits)
  else
    none

/-! ## Writing -/

/-- The shortest list of digits that denotes the number. -/
def digits (radix : Radix) (number : Nat) : List Char :=
  Nat.toDigits radix.base number

/-- The digits of the number, with zeros in front up to the given width. -/
def paddedDigits (radix : Radix) (width number : Nat) : List Char :=
  List.replicate (width - (radix.digits number).length) '0' ++
    radix.digits number

def write (radix : Radix) (number : Nat) : String :=
  String.ofList (radix.digits number)

/-- Write the number with zeros in front up to the given width. -/
def writePadded (radix : Radix) (width number : Nat) : String :=
  String.ofList (radix.paddedDigits width number)

/-- The mark `0x` and at least the given number of hexadecimal digits. -/
def writeHexadecimal (width number : Nat) : String :=
  "0x" ++ hexadecimal.writePadded width number

end Radix

end MipsAssembler
