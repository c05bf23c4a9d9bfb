import MipsAssembler.Machine.InstructionSet
import MipsAssembler.Program.Settings
import MipsAssembler.Program.SymbolTable
import MipsAssembler.Program.WordAddress
import MipsAssembler.Source.Token

/-!
# Binding labels to addresses

Labels are bound before any instruction is encoded, so that an instruction may
refer to a label that follows it.  A single walk over the tokens counts the
instructions by their mnemonics and binds each label to the address of the
instruction after it; the last definition of a label counts.
-/

namespace MipsAssembler

/-- The tokens among which labels are bound. -/
def LabelScope.tokens (scope : LabelScope) (tokens : List Token) : List Token :=
  match scope with
  | everywhere => tokens
  | afterText =>
      match tokens.dropWhile (· ≠ ⟨.directive, "text"⟩) with
      | [] => tokens
      | _ :: rest => rest

/-- The bindings made so far, and the address of the next instruction. -/
structure LabelBinding where
  symbols : SymbolTable
  address : UInt32

namespace LabelBinding

def start (base : UInt32) : LabelBinding :=
  ⟨.empty, base⟩

/-- Pass one token: a label is bound to the current address, and a mnemonic
takes one word. -/
def step (instructions : InstructionSet) (binding : LabelBinding)
    (token : Token) : LabelBinding :=
  match token.kind with
  | .label =>
      { binding with symbols := binding.symbols.define token.text binding.address }
  | .identifier =>
      if instructions.isMnemonic token.text then
        { binding with address := nextWord binding.address }
      else
        binding
  | _ => binding

/-- Walk over tokens from a base address on. -/
def walk (instructions : InstructionSet) (base : UInt32)
    (tokens : List Token) : LabelBinding :=
  tokens.foldl (step instructions) (start base)

end LabelBinding

/-- The addresses of the labels among the tokens. -/
def SymbolTable.ofTokens (instructions : InstructionSet) (settings : Settings)
    (tokens : List Token) : SymbolTable :=
  (LabelBinding.walk instructions settings.baseAddress
    (settings.labelScope.tokens tokens)).symbols

end MipsAssembler
