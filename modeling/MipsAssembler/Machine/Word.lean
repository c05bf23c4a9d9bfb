import MipsAssembler.Machine.InstructionFormat

/-!
# Packing instructions into words

An instruction word is the concatenation of the format's bit fields, the most
significant field first.  Each field is cut to its width before it is placed,
so no field reaches its neighbours.
-/

namespace MipsAssembler

/-- A run of bits in a word, and the value whose low bits fill it. -/
structure BitField where
  width : Nat
  value : UInt32
  deriving DecidableEq

/-- The low bits of the value that fill the field. -/
def BitField.bits (field : BitField) : Nat :=
  field.value.toNat % (1 <<< field.width)

/-- The number whose binary digits are the bits of the fields, first field
most significant. -/
def BitField.pack (fields : List BitField) : Nat :=
  fields.foldl (fun word field => word <<< field.width + field.bits) 0

namespace Instruction

/-- The bit fields of the instruction's format, most significant first. -/
def fields : Instruction → List BitField
  | register opcode rs rt rd shamt funct =>
      [⟨6, opcode⟩, ⟨5, rs⟩, ⟨5, rt⟩, ⟨5, rd⟩, ⟨5, shamt⟩, ⟨6, funct⟩]
  | immediate opcode rs rt imm =>
      [⟨6, opcode⟩, ⟨5, rs⟩, ⟨5, rt⟩, ⟨16, imm.toUInt32⟩]
  | jump opcode address =>
      [⟨6, opcode⟩, ⟨26, address⟩]

/-- The 32-bit machine word of the instruction. -/
def word (instruction : Instruction) : UInt32 :=
  UInt32.ofNat (BitField.pack instruction.fields)

/-- The word as 32 binary digits. -/
def binaryText (instruction : Instruction) : String :=
  Radix.binary.writePadded 32 instruction.word.toNat

/-- The word as eight hexadecimal digits. -/
def hexadecimalText (instruction : Instruction) : String :=
  Radix.hexadecimal.writePadded 8 instruction.word.toNat

end Instruction

end MipsAssembler
