import MipsAssembler.Numeral.Radix
import MipsAssembler.Text.WhiteSpace

/-!
# Addresses on the command line

An address is decimal, or hexadecimal after `0x`.  White space around it and
one plus sign before its digits are ignored.
-/

namespace MipsAssembler.CommandLine

inductive AddressFault
  | empty
  | invalidDigit
  | tooLarge
  deriving DecidableEq

def AddressFault.message : AddressFault → String
  | empty => "cannot parse integer from empty string"
  | invalidDigit => "invalid digit found in string"
  | tooLarge => "number too large to fit in target type"

/-- Read digits after a number that was read before them.  A character is
looked at as a digit before the size of the number is. -/
def readDigits (radix : Radix) (total : Nat) :
    List Char → Except AddressFault Nat
  | [] => .ok total
  | character :: rest =>
      match radix.digitValue? character with
      | none => .error .invalidDigit
      | some digit =>
          if total * radix.base + digit < UInt32.size then
            readDigits radix (total * radix.base + digit) rest
          else
            .error .tooLarge

/-- Read an optional plus sign and digits. -/
def readUnsigned (radix : Radix) : List Char → Except AddressFault Nat
  | [] => .error .empty
  | ['+'] => .error .invalidDigit
  | '+' :: digits => readDigits radix 0 digits
  | digits => readDigits radix 0 digits

/-- Read an address without white space around it. -/
def readTrimmedAddress : List Char → Except AddressFault Nat
  | '0' :: 'x' :: rest => readUnsigned .hexadecimal rest
  | '0' :: 'X' :: rest => readUnsigned .hexadecimal rest
  | text => readUnsigned .decimal text

/-- The address that a text denotes. -/
def readAddress (text : String) : Except AddressFault UInt32 :=
  (readTrimmedAddress (Text.trim text.toList)).map UInt32.ofNat

end MipsAssembler.CommandLine
