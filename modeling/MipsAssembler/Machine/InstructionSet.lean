import MipsAssembler.Machine.Category

/-!
# Instruction sets

The assembler is independent of the machine's tables: it asks an instruction
set for register numbers, directive names and mnemonics.  Names are asked for
in lower case and compared exactly.
-/

namespace MipsAssembler

/-- A row of a mnemonic table. -/
structure Descriptor where
  mnemonic : String
  category : Category
  deriving DecidableEq

/-- The names that an assembly run may look up. -/
structure InstructionSet where
  /-- The number of a register. -/
  register? : String → Option UInt8
  /-- The name is a directive. -/
  isDirective : String → Bool
  /-- The table row of a mnemonic. -/
  descriptor? : String → Option Descriptor

namespace InstructionSet

/-- The name has a row in the mnemonic table. -/
def isMnemonic (instructions : InstructionSet) (name : String) : Bool :=
  (instructions.descriptor? name).isSome

/-- The instruction set of three tables; of two rows with one name the first
counts. -/
def ofTables (registers : List (String × UInt8)) (directives : List String)
    (descriptors : List Descriptor) : InstructionSet where
  register? name := (registers.find? fun row => row.1 = name).map (·.2)
  isDirective name := directives.contains name
  descriptor? name := descriptors.find? fun row => row.mnemonic = name

end InstructionSet

end MipsAssembler
