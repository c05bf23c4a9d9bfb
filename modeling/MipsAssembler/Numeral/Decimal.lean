import MipsAssembler.Numeral.Radix

/-!
# Signed decimal numbers

The canonical text of an integer has a minus sign if the integer is negative,
and no leading zeros.  The reader is more liberal: it takes a sign of either
kind and any number of leading zeros.
-/

namespace MipsAssembler.Decimal

/-- The canonical text of an integer. -/
def characters (number : Int) : List Char :=
  if number < 0 then
    '-' :: Radix.decimal.digits number.natAbs
  else
    Radix.decimal.digits number.natAbs

def write (number : Int) : String :=
  String.ofList (characters number)

/-- Read an optional sign followed by one or more digits. -/
def read? : List Char → Option Int
  | '-' :: digits => (Radix.decimal.read? digits).map fun number : Nat => -number
  | '+' :: digits => (Radix.decimal.read? digits).map Nat.cast
  | digits => (Radix.decimal.read? digits).map Nat.cast

end MipsAssembler.Decimal
