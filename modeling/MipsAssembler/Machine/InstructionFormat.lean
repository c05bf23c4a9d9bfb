import MipsAssembler.Numeral.Decimal

/-!
# Instruction formats

A machine instruction has one of three formats.  Its fields hold whatever the
source text supplied; they are cut to their bit widths only when the
instruction is packed into a word.
-/

namespace MipsAssembler

/-- A machine instruction in the register, immediate or jump format. -/
inductive Instruction
  | register (opcode rs rt rd shamt funct : UInt32)
  | immediate (opcode rs rt : UInt32) (imm : Int32)
  | jump (opcode address : UInt32)
  deriving DecidableEq

namespace Instruction

/-- The field that every format begins with. -/
def opcode : Instruction → UInt32
  | register opcode .. => opcode
  | immediate opcode .. => opcode
  | jump opcode .. => opcode

/-- The letter that names the format. -/
def formatLetter : Instruction → String
  | register .. => "R"
  | immediate .. => "I"
  | jump .. => "J"

/-! ## Description -/

private def describeCode (code : UInt32) : String :=
  Radix.writeHexadecimal 2 code.toNat

private def describeNumber (number : UInt32) : String :=
  Radix.decimal.write number.toNat

/-- One line that names each field and its unmasked value: codes and
addresses in hexadecimal, the other fields in decimal. -/
def describe (instruction : Instruction) : String :=
  match instruction with
  | register opcode rs rt rd shamt funct =>
      "R(opcode=" ++ describeCode opcode ++ ", rs=" ++ describeNumber rs ++
        ", rt=" ++ describeNumber rt ++ ", rd=" ++ describeNumber rd ++
        ", shamt=" ++ describeNumber shamt ++
        ", funct=" ++ describeCode funct ++ ")"
  | immediate opcode rs rt imm =>
      "I(opcode=" ++ describeCode opcode ++ ", rs=" ++ describeNumber rs ++
        ", rt=" ++ describeNumber rt ++ ", imm=" ++ Decimal.write imm.toInt ++
        ")"
  | jump opcode address =>
      "J(opcode=" ++ describeCode opcode ++ ", address=" ++
        Radix.writeHexadecimal 8 address.toNat ++ ")"

end Instruction

end MipsAssembler
