import MipsAssembler.Source.Position

/-!
# Lexical errors

A source text that is not a sequence of tokens is refused at the first token
that cannot be completed.
-/

namespace MipsAssembler

/-- What is wrong with the token that begins at some position. -/
inductive LexicalFault
  | invalidCharacter (character : Char)
  | invalidRegister (name : String)
  | invalidDirective (name : String)
  /-- A number is well formed up to a character that is no digit of its base. -/
  | invalidIntegerCharacter (accepted : String) (character : Char)
  /-- A number has no digits, or its value does not fit a word. -/
  | invalidNumber (spelling : String)
  deriving DecidableEq

def LexicalFault.message : LexicalFault → String
  | invalidCharacter character =>
      "Invalid character " ++ character.toString
  | invalidRegister name => "Invalid register name " ++ name
  | invalidDirective name => "Invalid directive " ++ name
  | invalidIntegerCharacter accepted character =>
      "Invalid character in integer " ++ accepted ++ ": " ++ character.toString
  | invalidNumber spelling => "Invalid number " ++ spelling

/-- A fault and the position where its token begins. -/
structure LexicalError where
  fault : LexicalFault
  position : Position
  deriving DecidableEq

end MipsAssembler
