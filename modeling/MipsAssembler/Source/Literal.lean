import MipsAssembler.Numeral.Radix
import MipsAssembler.Source.LexicalError

/-!
# Number literals

A literal is an optional minus sign, a base marker and digits.  Digits without
a marker are decimal, whatever number of zeros they begin with.  The value
has to fit a machine word, read either as signed or as unsigned.
-/

namespace MipsAssembler

/-- A number as it is spelled in a source text. -/
structure Literal where
  isNegative : Bool
  /-- The base marker as written: empty, or `0x` or `0b` in either case. -/
  marker : List Char
  radix : Radix
  digits : List Char
  deriving DecidableEq

namespace Literal

/-- Take a spelling without its sign apart. -/
def ofUnsigned (isNegative : Bool) : List Char → Literal
  | '0' :: 'x' :: digits => ⟨isNegative, ['0', 'x'], .hexadecimal, digits⟩
  | '0' :: 'X' :: digits => ⟨isNegative, ['0', 'X'], .hexadecimal, digits⟩
  | '0' :: 'b' :: digits => ⟨isNegative, ['0', 'b'], .binary, digits⟩
  | '0' :: 'B' :: digits => ⟨isNegative, ['0', 'B'], .binary, digits⟩
  | digits => ⟨isNegative, [], .decimal, digits⟩

/-- Take a spelling apart into sign, marker and digits. -/
def ofSpelling : List Char → Literal
  | '-' :: unsigned => ofUnsigned true unsigned
  | unsigned => ofUnsigned false unsigned

/-- The spelling up to the digits. -/
def lead (literal : Literal) : List Char :=
  if literal.isNegative then '-' :: literal.marker else literal.marker

def spelling (literal : Literal) : List Char :=
  literal.lead ++ literal.digits

/-- Taking a spelling apart loses nothing. -/
theorem spelling_ofUnsigned (isNegative : Bool) (unsigned : List Char) :
    (ofUnsigned isNegative unsigned).spelling =
      (if isNegative then ['-'] else []) ++ unsigned := by
  unfold ofUnsigned
  split <;> cases isNegative <;> simp [spelling, lead]

theorem spelling_ofSpelling (characters : List Char) :
    (ofSpelling characters).spelling = characters := by
  unfold ofSpelling
  split <;> simp [spelling_ofUnsigned]

/-- The number that the literal denotes. -/
def value (literal : Literal) : Int :=
  if literal.isNegative then
    -(literal.radix.value literal.digits : Int)
  else
    literal.radix.value literal.digits

/-- The number is in the range of a signed or of an unsigned word. -/
def Fits (number : Int) : Prop :=
  -0x80000000 ≤ number ∧ number ≤ 0xFFFFFFFF

instance (number : Int) : Decidable (Fits number) :=
  inferInstanceAs (Decidable (_ ∧ _))

/-- The value of a literal, or the fault that makes it none. -/
def check (literal : Literal) : Except LexicalFault Int :=
  match literal.digits.dropWhile literal.radix.isDigit with
  | foreign :: _ =>
      .error (.invalidIntegerCharacter
        (String.ofList
          (literal.lead ++ literal.digits.takeWhile literal.radix.isDigit))
        foreign)
  | [] =>
      if literal.digits ≠ [] ∧ Fits literal.value then
        .ok literal.value
      else
        .error (.invalidNumber (String.ofList literal.spelling))

/-- The number that a spelling denotes, or the fault that makes it none. -/
def read (characters : List Char) : Except LexicalFault Int :=
  (ofSpelling characters).check

end Literal

end MipsAssembler
