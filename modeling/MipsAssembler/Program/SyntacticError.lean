import MipsAssembler.Source.Token

/-!
# Syntactic errors

Tokens that are not a sequence of well-formed instructions are refused at the
first token that cannot continue one.
-/

namespace MipsAssembler

/-- What has to come next in a sequence of instructions. -/
inductive Expectation
  | instruction
  | register
  | integer
  | label
  | comma
  | openParen
  | closeParen
  deriving DecidableEq

def Expectation.text : Expectation → String
  | instruction => "instruction"
  | register => "register"
  | integer => "integer"
  | label => "label"
  | comma => "comma"
  | openParen => "open parenthesis"
  | closeParen => "close parenthesis"

inductive SyntacticError
  /-- Something else was found, or the tokens ended. -/
  | expected (expectation : Expectation) (found : Option Token)
  | invalidInstruction (name : String)
  | undefinedLabel (name : String)
  /-- The text of a number token denotes no 64-bit number. -/
  | invalidInteger (text : String)
  deriving DecidableEq

def SyntacticError.message : SyntacticError → String
  | expected expectation found =>
      "Expected " ++ expectation.text ++ ", got " ++
        (found.map Token.text).getD "end of input"
  | invalidInstruction name => "Invalid instruction " ++ name
  | undefinedLabel name => "Undefined label " ++ name
  | invalidInteger text => "Invalid integer " ++ text

end MipsAssembler
