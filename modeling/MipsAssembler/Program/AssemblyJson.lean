import MipsAssembler.Json.Printer
import MipsAssembler.Program.Assembly

/-!
# Assemblies as JSON

An instruction is an object with its format letter and its unmasked fields, a
symbol table an object with a member for each name, and an assembly an object
of its three parts.
-/

namespace MipsAssembler

def Instruction.toJson (instruction : Instruction) : Json :=
  match instruction with
  | register opcode rs rt rd shamt funct =>
      .record [("format", .ofText instruction.formatLetter),
        ("opcode", .ofWord opcode), ("rs", .ofWord rs), ("rt", .ofWord rt),
        ("rd", .ofWord rd), ("shamt", .ofWord shamt), ("funct", .ofWord funct)]
  | immediate opcode rs rt imm =>
      .record [("format", .ofText instruction.formatLetter),
        ("opcode", .ofWord opcode), ("rs", .ofWord rs), ("rt", .ofWord rt),
        ("imm", .ofInt imm.toInt)]
  | jump opcode address =>
      .record [("format", .ofText instruction.formatLetter),
        ("opcode", .ofWord opcode), ("address", .ofWord address)]

/-- The members are in the order of the table, ascending by name. -/
def SymbolTable.toJson (table : SymbolTable) : Json :=
  .record (table.entries.map fun entry => (entry.1, .ofWord entry.2))

def Assembly.toJson (assembly : Assembly) : Json :=
  .record [("base_address", .ofWord assembly.baseAddress),
    ("symbols", assembly.symbols.toJson),
    ("instructions", .array (assembly.instructions.map Instruction.toJson))]

end MipsAssembler
