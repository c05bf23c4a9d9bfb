import MipsAssembler.Machine.Mips32
import MipsAssembler.Program.Encoding
import MipsAssembler.Program.EntryBody
import MipsAssembler.Program.LabelBinding
import MipsAssembler.Source.Tokens

/-!
# Assembling a source text

An assembly run reads the tokens, binds all labels, and encodes the code of
the entry label.  Without an entry label there is nothing to encode, which is
not an error.
-/

namespace MipsAssembler

/-- The result of an assembly run. -/
structure Assembly where
  baseAddress : UInt32
  symbols : SymbolTable
  instructions : List Instruction
  deriving DecidableEq

/-- Why a source text cannot be assembled. -/
inductive AssemblyError
  | lexical (error : LexicalError)
  | syntactic (error : SyntacticError)
  deriving DecidableEq

def AssemblyError.message : AssemblyError → String
  | lexical error => error.fault.message
  | syntactic error => error.message

/-- Assemble a list of tokens. -/
def Assembly.ofTokens (instructions : InstructionSet) (settings : Settings)
    (tokens : List Token) : Except SyntacticError Assembly :=
  let symbols := SymbolTable.ofTokens instructions settings tokens
  let body := (entryBody? settings.entryLabel tokens).getD []
  match Instruction.ofTokens instructions symbols settings.baseAddress body with
  | .error error => .error error
  | .ok encoded => .ok ⟨settings.baseAddress, symbols, encoded⟩

/-- Assemble a source text for the given instruction set. -/
def Assembly.ofSource (instructions : InstructionSet) (settings : Settings)
    (source : String) : Except AssemblyError Assembly :=
  match Token.ofSource instructions source with
  | .error error => .error (.lexical error)
  | .ok tokens =>
      match Assembly.ofTokens instructions settings tokens with
      | .error error => .error (.syntactic error)
      | .ok assembly => .ok assembly

/-- Assemble a source text for the MIPS-32 instruction set. -/
def assemble (settings : Settings) (source : String) :
    Except AssemblyError Assembly :=
  Assembly.ofSource Mips32.instructionSet settings source

end MipsAssembler
