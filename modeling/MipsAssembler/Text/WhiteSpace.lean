/-!
# White space

The Unicode property `White_Space` decides where words and numbers of a
source text end, and what is trimmed from an address given on the command
line.  The property is a fixed set of 25 code points, kept here as ranges.
-/

namespace MipsAssembler.Text

/-- The code points of the property `White_Space`, as ascending closed ranges. -/
def whiteSpaceRanges : List (Nat × Nat) :=
  [(0x9, 0xD), (0x20, 0x20), (0x85, 0x85), (0xA0, 0xA0), (0x1680, 0x1680),
    (0x2000, 0x200A), (0x2028, 0x2029), (0x202F, 0x202F), (0x205F, 0x205F),
    (0x3000, 0x3000)]

/-- The character has the Unicode property `White_Space`. -/
def isWhiteSpace (character : Char) : Bool :=
  whiteSpaceRanges.any fun range =>
    range.1 ≤ character.toNat && character.toNat ≤ range.2

/-- The text without the white space at its two ends. -/
def trim (characters : List Char) : List Char :=
  ((characters.dropWhile isWhiteSpace).reverse.dropWhile isWhiteSpace).reverse

end MipsAssembler.Text
