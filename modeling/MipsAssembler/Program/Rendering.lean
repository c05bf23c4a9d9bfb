import MipsAssembler.Program.AssemblyJson

/-!
# Output formats

An assembly is written in one of four formats.  The first three have one line
for each instruction and no line feed at the end.
-/

namespace MipsAssembler

inductive OutputFormat
  /-- Words of 32 binary digits. -/
  | binary
  /-- Words of eight hexadecimal digits. -/
  | hexadecimal
  /-- Address, hexadecimal word and binary word, in three columns. -/
  | listing
  | json
  deriving DecidableEq

/-- The format that a name stands for. -/
def OutputFormat.ofName? : String → Option OutputFormat
  | "binary" => some binary
  | "hex" => some hexadecimal
  | "listing" => some listing
  | "json" => some json
  | _ => none

/-- Join lines by line feeds. -/
def joinLines (lines : List String) : String :=
  "\n".intercalate lines

namespace Assembly

/-- The words of the instructions, in order. -/
def words (assembly : Assembly) : List UInt32 :=
  assembly.instructions.map Instruction.word

def binaryText (assembly : Assembly) : String :=
  joinLines (assembly.instructions.map Instruction.binaryText)

def hexadecimalText (assembly : Assembly) : String :=
  joinLines (assembly.instructions.map Instruction.hexadecimalText)

/-- The line of a listing for the instruction at an address. -/
def listingLine (address : UInt32) (instruction : Instruction) : String :=
  Radix.writeHexadecimal 8 address.toNat ++ "  " ++
    "0x" ++ instruction.hexadecimalText ++ "  " ++ instruction.binaryText

/-- The lines of a listing, the first of them for the instruction at the
address. -/
def listingLines (address : UInt32) : List Instruction → List String
  | [] => []
  | instruction :: later =>
      listingLine address instruction :: listingLines (nextWord address) later

def listing (assembly : Assembly) : String :=
  joinLines (listingLines assembly.baseAddress assembly.instructions)

/-- The text of the assembly in a format. -/
def render (assembly : Assembly) : OutputFormat → String
  | .binary => assembly.binaryText
  | .hexadecimal => assembly.hexadecimalText
  | .listing => assembly.listing
  | .json => assembly.toJson.pretty

end Assembly

/-- Assemble a source text with the default settings into binary words. -/
def assembleBinary (source : String) : Except AssemblyError String :=
  (assemble {} source).map Assembly.binaryText

end MipsAssembler
