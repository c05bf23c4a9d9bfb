import MipsAssembler.Source.Token
import MipsAssembler.Text.LetterCase

/-!
# The code of the entry label

Only the code between the entry label and the label after it is encoded.
-/

namespace MipsAssembler

/-- The tokens after the first definition of the entry label, up to the next
label; nothing if the entry label is not defined. -/
def entryBody? (entryLabel : String) (tokens : List Token) :
    Option (List Token) :=
  match tokens.dropWhile (· ≠ ⟨.label, Text.foldCase entryLabel⟩) with
  | [] => none
  | _ :: rest => some (rest.takeWhile (·.kind ≠ .label))

end MipsAssembler
