import MipsAssembler.Machine.Word

/-!
# Instruction categories

Every mnemonic belongs to one of ten categories.  A category says which
operands follow the mnemonic, as a list of slots that the source tokens fill
one by one, and how the operand values become a machine instruction.
-/

namespace MipsAssembler

/-- A register field of the instruction formats. -/
inductive RegisterField
  | rs
  | rt
  | rd
  deriving DecidableEq

/-- Whether the operand of a one-register instruction is read or written. -/
inductive RegisterRole
  | source
  | destination
  deriving DecidableEq

/-- The field that holds an operand of the role. -/
def RegisterRole.field : RegisterRole → RegisterField
  | source => .rs
  | destination => .rd

/-- What a conditional branch compares. -/
inductive BranchTest
  /-- One register with zero; the `rt` field selects the relation. -/
  | againstZero (selector : UInt8)
  /-- Two registers with each other. -/
  | betweenRegisters
  deriving DecidableEq

/-- The kinds of operand list, with the codes that the machine word needs. -/
inductive Category
  /-- Operands `rd, rs, rt`, under opcode zero. -/
  | threeRegister (funct : UInt8)
  /-- Operands `rs, rt`; the result goes to the multiply unit. -/
  | twoRegister (funct : UInt8)
  /-- Operands `rd, rt, amount`. -/
  | shift (funct : UInt8)
  /-- A single register operand. -/
  | oneRegister (funct : UInt8) (role : RegisterRole)
  /-- Operands `rd, rs, rt`, under an opcode of its own. -/
  | extended (opcode funct : UInt8)
  /-- Operands `rt, rs, integer`. -/
  | immediate (opcode : UInt8)
  /-- Operands `rt, integer`. -/
  | loadUpper (opcode : UInt8)
  /-- The compared registers, then a label. -/
  | branch (opcode : UInt8) (test : BranchTest)
  /-- Operands `rt, offset(base)`. -/
  | memory (opcode : UInt8)
  /-- A label. -/
  | jump (opcode : UInt8)
  deriving DecidableEq

/-- A place in an operand list, to be filled by one token. -/
inductive Slot
  | register (field : RegisterField)
  | integer
  | label
  | comma
  | openParen
  | closeParen
  deriving DecidableEq

namespace Category

/-- The operand list of the category. -/
def slots : Category → List Slot
  | threeRegister _ | extended .. =>
      [.register .rd, .comma, .register .rs, .comma, .register .rt]
  | twoRegister _ => [.register .rs, .comma, .register .rt]
  | shift _ => [.register .rd, .comma, .register .rt, .comma, .integer]
  | oneRegister _ role => [.register role.field]
  | immediate _ => [.register .rt, .comma, .register .rs, .comma, .integer]
  | loadUpper _ => [.register .rt, .comma, .integer]
  | branch _ (.againstZero _) => [.register .rs, .comma, .label]
  | branch _ .betweenRegisters =>
      [.register .rs, .comma, .register .rt, .comma, .label]
  | memory _ =>
      [.register .rt, .comma, .integer, .openParen, .register .rs, .closeParen]
  | jump _ => [.label]

end Category

/-! ## Operand values -/

/-- The values that the filled slots of an operand list supply; what no slot
supplies is zero. -/
structure Operands where
  rs : UInt32 := 0
  rt : UInt32 := 0
  rd : UInt32 := 0
  integer : Int := 0
  target : UInt32 := 0
  deriving DecidableEq

/-- The operands with one register field replaced. -/
def Operands.setRegister (operands : Operands) (field : RegisterField)
    (number : UInt32) : Operands :=
  match field with
  | .rs => { operands with rs := number }
  | .rt => { operands with rt := number }
  | .rd => { operands with rd := number }

/-- The distance in words from a branch to its target, cut toward zero.  It
is measured from the branch itself and not from the instruction after it. -/
def branchDistance (here target : UInt32) : Int :=
  ((target.toNat : Int) - here.toNat).tdiv 4

/-- The machine instruction that the category makes of operand values at an
address.  Integers are reduced modulo `2 ^ 32`. -/
def Category.instruction (category : Category) (here : UInt32)
    (operands : Operands) : Instruction :=
  match category with
  | .threeRegister funct =>
      .register 0 operands.rs operands.rt operands.rd 0 funct.toUInt32
  | .twoRegister funct =>
      .register 0 operands.rs operands.rt 0 0 funct.toUInt32
  | .shift funct =>
      .register 0 0 operands.rt operands.rd (UInt32.ofInt operands.integer)
        funct.toUInt32
  | .oneRegister funct .source =>
      .register 0 operands.rs 0 0 0 funct.toUInt32
  | .oneRegister funct .destination =>
      .register 0 0 0 operands.rd 0 funct.toUInt32
  | .extended opcode funct =>
      .register opcode.toUInt32 operands.rs operands.rt operands.rd 0
        funct.toUInt32
  | .immediate opcode =>
      .immediate opcode.toUInt32 operands.rs operands.rt
        (Int32.ofInt operands.integer)
  | .loadUpper opcode =>
      .immediate opcode.toUInt32 0 operands.rt (Int32.ofInt operands.integer)
  | .branch opcode (.againstZero selector) =>
      .immediate opcode.toUInt32 operands.rs selector.toUInt32
        (Int32.ofInt (branchDistance here operands.target))
  | .branch opcode .betweenRegisters =>
      .immediate opcode.toUInt32 operands.rs operands.rt
        (Int32.ofInt (branchDistance here operands.target))
  | .memory opcode =>
      .immediate opcode.toUInt32 operands.rs operands.rt
        (Int32.ofInt operands.integer)
  | .jump opcode =>
      .jump opcode.toUInt32 operands.target

end MipsAssembler
