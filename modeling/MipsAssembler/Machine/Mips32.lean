import MipsAssembler.Machine.InstructionSet

/-!
# The MIPS-32 tables

The register file, the directives that are recognised and skipped, and the
subset of mnemonics that is encoded.
-/

namespace MipsAssembler.Mips32

/-- The conventional register names, in the order of their numbers. -/
def registers : List String :=
  ["zero", "at", "v0", "v1", "a0", "a1", "a2", "a3",
    "t0", "t1", "t2", "t3", "t4", "t5", "t6", "t7",
    "s0", "s1", "s2", "s3", "s4", "s5", "s6", "s7",
    "t8", "t9", "k0", "k1", "gp", "sp", "fp", "ra"]

def directives : List String :=
  ["align", "ascii", "asciiz", "byte", "data", "double", "extern", "float",
    "globl", "half", "kdata", "ktext", "space", "text", "word"]

/-- The mnemonic table. -/
def descriptors : List Descriptor :=
  [⟨"add", .threeRegister 0x20⟩,
    ⟨"addu", .threeRegister 0x21⟩,
    ⟨"sub", .threeRegister 0x22⟩,
    ⟨"subu", .threeRegister 0x23⟩,
    ⟨"and", .threeRegister 0x24⟩,
    ⟨"or", .threeRegister 0x25⟩,
    ⟨"xor", .threeRegister 0x26⟩,
    ⟨"nor", .threeRegister 0x27⟩,
    ⟨"slt", .threeRegister 0x2a⟩,
    ⟨"sltu", .threeRegister 0x2b⟩,
    ⟨"sllv", .threeRegister 0x04⟩,
    ⟨"srlv", .threeRegister 0x06⟩,
    ⟨"srav", .threeRegister 0x07⟩,
    ⟨"mult", .twoRegister 0x18⟩,
    ⟨"multu", .twoRegister 0x19⟩,
    ⟨"div", .twoRegister 0x1a⟩,
    ⟨"divu", .twoRegister 0x1b⟩,
    ⟨"sll", .shift 0x00⟩,
    ⟨"srl", .shift 0x02⟩,
    ⟨"sra", .shift 0x03⟩,
    ⟨"jr", .oneRegister 0x08 .source⟩,
    ⟨"jalr", .oneRegister 0x09 .source⟩,
    ⟨"mfhi", .oneRegister 0x10 .destination⟩,
    ⟨"mthi", .oneRegister 0x11 .source⟩,
    ⟨"mflo", .oneRegister 0x12 .destination⟩,
    ⟨"mtlo", .oneRegister 0x13 .source⟩,
    ⟨"mul", .extended 0x1c 0x02⟩,
    ⟨"addi", .immediate 0x08⟩,
    ⟨"addiu", .immediate 0x09⟩,
    ⟨"slti", .immediate 0x0a⟩,
    ⟨"sltiu", .immediate 0x0b⟩,
    ⟨"andi", .immediate 0x0c⟩,
    ⟨"ori", .immediate 0x0d⟩,
    ⟨"xori", .immediate 0x0e⟩,
    ⟨"lui", .loadUpper 0x0f⟩,
    ⟨"beq", .branch 0x04 .betweenRegisters⟩,
    ⟨"bne", .branch 0x05 .betweenRegisters⟩,
    ⟨"bltz", .branch 0x01 (.againstZero 0)⟩,
    ⟨"bgez", .branch 0x01 (.againstZero 1)⟩,
    ⟨"blez", .branch 0x06 (.againstZero 0)⟩,
    ⟨"bgtz", .branch 0x07 (.againstZero 0)⟩,
    ⟨"lb", .memory 0x20⟩,
    ⟨"lh", .memory 0x21⟩,
    ⟨"lw", .memory 0x23⟩,
    ⟨"lbu", .memory 0x24⟩,
    ⟨"lhu", .memory 0x25⟩,
    ⟨"sb", .memory 0x28⟩,
    ⟨"sh", .memory 0x29⟩,
    ⟨"sw", .memory 0x2b⟩,
    ⟨"sc", .memory 0x38⟩,
    ⟨"j", .jump 0x02⟩,
    ⟨"jal", .jump 0x03⟩]

/-- Each register with its number. -/
def numberedRegisters : List (String × UInt8) :=
  registers.zipIdx.map fun entry => (entry.1, UInt8.ofNat entry.2)

def instructionSet : InstructionSet :=
  .ofTables numberedRegisters directives descriptors

end MipsAssembler.Mips32
