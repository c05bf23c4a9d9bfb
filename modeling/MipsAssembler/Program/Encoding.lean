import MipsAssembler.Machine.InstructionSet
import MipsAssembler.Program.SymbolTable
import MipsAssembler.Program.SyntacticError
import MipsAssembler.Program.WordAddress

/-!
# Encoding the instructions of a token list

An instruction is a mnemonic followed by the operand list of its category.
The tokens are taken one by one.  Between two instructions a mnemonic has to
come; inside one, the next slot of the operand list has to be filled.  A token
that does neither ends the run, whatever tokens follow it.
-/

namespace MipsAssembler

/-! ## Slots and tokens -/

/-- The kind of token that fills a slot. -/
def Slot.tokenKind : Slot → TokenKind
  | register _ => .register
  | integer => .number
  | label => .identifier
  | comma => .comma
  | openParen => .openParen
  | closeParen => .closeParen

/-- How the slot is named when another token stands in its place. -/
def Slot.expectation : Slot → Expectation
  | register _ => .register
  | integer => .integer
  | label => .label
  | comma => .comma
  | openParen => .openParen
  | closeParen => .closeParen

/-- The value of a number token, if it is a signed 64-bit number. -/
def Token.integer? (token : Token) : Option Int :=
  (Decimal.read? token.text.toList).filter fun number =>
    -0x8000000000000000 ≤ number ∧ number ≤ 0x7FFFFFFFFFFFFFFF

/-- The operands after a token is put into a slot. -/
def Slot.fill (slot : Slot) (instructions : InstructionSet)
    (symbols : SymbolTable) (token : Token) (operands : Operands) :
    Except SyntacticError Operands :=
  if token.kind ≠ slot.tokenKind then
    .error (.expected slot.expectation (some token))
  else
    match slot with
    | register field =>
        match instructions.register? token.text with
        | some number => .ok (operands.setRegister field number.toUInt32)
        | none => .error (.expected .register (some token))
    | integer =>
        match token.integer? with
        | some number => .ok { operands with integer := number }
        | none => .error (.invalidInteger token.text)
    | label =>
        match symbols.find? token.text with
        | some address => .ok { operands with target := address }
        | none => .error (.undefinedLabel token.text)
    | comma | openParen | closeParen => .ok operands

/-! ## The run over a token list -/

/-- An instruction whose operand list is not complete. -/
structure PartialInstruction where
  category : Category
  /-- The slot to be filled next. -/
  slot : Slot
  /-- The slots after that one. -/
  later : List Slot
  operands : Operands
  deriving DecidableEq

/-- The state of a run between two tokens. -/
structure Encoding where
  /-- The address of the current instruction. -/
  here : UInt32
  /-- The finished instructions, the last one first. -/
  finished : List Instruction
  /-- The instruction that has begun, if any. -/
  current? : Option PartialInstruction
  deriving DecidableEq

namespace Encoding

def start (base : UInt32) : Encoding :=
  ⟨base, [], none⟩

/-- Go on with an instruction whose remaining slots are given; when there are
none left, it is finished and the address moves on. -/
def proceed (encoding : Encoding) (category : Category) (operands : Operands) :
    List Slot → Encoding
  | [] =>
      ⟨nextWord encoding.here,
        category.instruction encoding.here operands :: encoding.finished,
        none⟩
  | slot :: later =>
      { encoding with current? := some ⟨category, slot, later, operands⟩ }

/-- Begin the instruction that a token names. -/
def startInstruction (instructions : InstructionSet) (encoding : Encoding)
    (token : Token) : Except SyntacticError Encoding :=
  if token.kind ≠ .identifier then
    .error (.expected .instruction (some token))
  else
    match instructions.descriptor? token.text with
    | none => .error (.invalidInstruction token.text)
    | some row => .ok (encoding.proceed row.category {} row.category.slots)

/-- Take one token. -/
def step (instructions : InstructionSet) (symbols : SymbolTable)
    (encoding : Encoding) (token : Token) : Except SyntacticError Encoding :=
  match encoding.current? with
  | none => encoding.startInstruction instructions token
  | some current =>
      match current.slot.fill instructions symbols token current.operands with
      | .error error => .error error
      | .ok operands =>
          .ok (encoding.proceed current.category operands current.later)

/-- Take the tokens of a list in turn, up to the first error. -/
def run (instructions : InstructionSet) (symbols : SymbolTable) :
    Encoding → List Token → Except SyntacticError Encoding
  | encoding, [] => .ok encoding
  | encoding, token :: rest =>
      match encoding.step instructions symbols token with
      | .error error => .error error
      | .ok next => run instructions symbols next rest

/-- The finished instructions in order, unless one is left incomplete. -/
def finish (encoding : Encoding) : Except SyntacticError (List Instruction) :=
  match encoding.current? with
  | none => .ok encoding.finished.reverse
  | some current => .error (.expected current.slot.expectation none)

end Encoding

/-- The instructions that a token list denotes from a base address on. -/
def Instruction.ofTokens (instructions : InstructionSet)
    (symbols : SymbolTable) (base : UInt32) (tokens : List Token) :
    Except SyntacticError (List Instruction) :=
  match Encoding.run instructions symbols (.start base) tokens with
  | .error error => .error error
  | .ok encoding => encoding.finish

end MipsAssembler
