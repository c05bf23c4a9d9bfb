/-!
# Positions in a source text

Lines and columns count from one.  Only a line feed starts a line; every other
character, whatever its width on a screen, takes one column.
-/

namespace MipsAssembler

structure Position where
  line : Nat
  column : Nat
  deriving DecidableEq

namespace Position

/-- The position of the first character of a text. -/
def start : Position :=
  ⟨1, 1⟩

/-- The position after one more character. -/
def advance (position : Position) (character : Char) : Position :=
  if character = '\n' then
    ⟨position.line + 1, 1⟩
  else
    ⟨position.line, position.column + 1⟩

/-- The position reached after the given text. -/
def after (text : List Char) : Position :=
  text.foldl advance start

end Position

end MipsAssembler
