import MipsAssembler.Source.Item

/-!
# From source text to tokens

The items of a text are read one after another, and the tokens among them are
kept.  The first fault ends the reading; it is reported at the position where
its item begins, whatever part of the item was at fault.
-/

namespace MipsAssembler.Source

/-- The fault that ends the reading of items, and the text from the faulty
item on. -/
structure Refusal where
  fault : LexicalFault
  remaining : List Char
  deriving DecidableEq

/-- Read items up to the end of a text, after tokens that were found before
and are kept in reverse. -/
def readItems (instructions : InstructionSet) (text : List Char)
    (found : List Token) : Except Refusal (List Token) :=
  match text with
  | [] => .ok found.reverse
  | first :: rest =>
      match _ : readItem instructions first rest with
      | .error fault => .error ⟨fault, first :: rest⟩
      | .ok item =>
          readItems instructions item.remaining (item.token?.toList ++ found)
termination_by text.length
decreasing_by exact Nat.lt_succ_of_le (length_remaining_readItem_le ‹_›)

theorem readItems_cons (instructions : InstructionSet) (first : Char)
    (rest : List Char) (found : List Token) :
    readItems instructions (first :: rest) found =
      match readItem instructions first rest with
      | .error fault => .error ⟨fault, first :: rest⟩
      | .ok item =>
          readItems instructions item.remaining
            (item.token?.toList ++ found) := by
  rw [readItems]
  split <;> simp [*]

/-- The position in a text where its last part begins. -/
def positionOf (text remaining : List Char) : Position :=
  .after (text.take (text.length - remaining.length))

end MipsAssembler.Source

namespace MipsAssembler

/-- The tokens of a source text, or its first fault and where it stands. -/
def Token.ofSource (instructions : InstructionSet) (source : String) :
    Except LexicalError (List Token) :=
  match Source.readItems instructions source.toList [] with
  | .ok tokens => .ok tokens
  | .error refusal =>
      .error ⟨refusal.fault,
        Source.positionOf source.toList refusal.remaining⟩

end MipsAssembler
