import MipsAssembler.Program.Rendering
import MipsAssembler.Program.SettingsJson
import MipsAssembler.Proofs.Json.RoundTrip
import MipsAssembler.Proofs.Program.SymbolTable

/-!
# Assemblies are read back from JSON

Each part of an assembly has a decoder, which looks members up by name and
ignores their order.  Decoding what was written gives the assembly back.
-/

namespace MipsAssembler

namespace Json

/-- The value of the member with a given name, if there is exactly one. -/
def member? (name : String) : Json → Option Json
  | object members =>
      match members.filter fun member => member.1 = some name with
      | [(_, value)] => some value
      | _ => none
  | _ => none

/-- The signed 32-bit number that a value denotes. -/
def toInt32? : Json → Option Int32
  | number spelling =>
      ((Decimal.read? spelling.toList).filter fun value =>
        -0x80000000 ≤ value ∧ value ≤ 0x7FFFFFFF).map Int32.ofInt
  | _ => none

theorem toWord?_ofWord (value : UInt32) : (ofWord value).toWord? = some value := by
  rw [ofWord, toWord?, Radix.write, String.toList_ofList, Radix.read?_digits,
    Option.filter_some, decide_eq_true value.toNat_lt, if_pos rfl,
    Option.map_some, UInt32.ofNat_toNat]

theorem toInt32?_ofInt (value : Int32) :
    (ofInt value.toInt).toInt32? = some value := by
  have lower := value.le_toInt
  have upper := value.toInt_lt
  have inRange : -0x80000000 ≤ value.toInt ∧ value.toInt ≤ 0x7FFFFFFF := by
    omega
  rw [ofInt, toInt32?, Decimal.write, String.toList_ofList,
    Decimal.read?_characters, Option.filter_some, decide_eq_true inRange,
    if_pos rfl, Option.map_some, Int32.ofInt_toInt]

end Json

open Json

/-! ## Instructions -/

/-- The instruction that a value denotes: its member `format` says which other
members there have to be. -/
def Instruction.ofJson? (value : Json) : Option Instruction := do
  let word (name : String) : Option UInt32 := (value.member? name).bind toWord?
  match ← (value.member? "format").bind toText? with
  | "R" =>
      return .register (← word "opcode") (← word "rs") (← word "rt")
        (← word "rd") (← word "shamt") (← word "funct")
  | "I" =>
      return .immediate (← word "opcode") (← word "rs") (← word "rt")
        (← (value.member? "imm").bind toInt32?)
  | "J" => return .jump (← word "opcode") (← word "address")
  | _ => none

theorem Instruction.ofJson?_toJson (instruction : Instruction) :
    ofJson? instruction.toJson = some instruction := by
  cases instruction <;>
    simp [ofJson?, toJson, record, member?, formatLetter, ofText, toText?,
      toWord?_ofWord, toInt32?_ofInt]

theorem Instruction.isWellFormed_toJson (instruction : Instruction) :
    instruction.toJson.IsWellFormed := by
  cases instruction <;> apply isWellFormed_record <;>
    simp [isWellFormed_ofWord, isWellFormed_ofInt, ofText, IsWellFormed.string]

/-! ## Symbol tables -/

/-- The name and address that a member of a symbol table denotes. -/
def SymbolTable.definition? (member : Option String × Json) :
    Option (String × UInt32) := do
  return (← member.1, ← member.2.toWord?)

def SymbolTable.ofJson? : Json → Option SymbolTable
  | .object members => (members.mapM definition?).map ofList
  | _ => none

/-- Decoding all parts of a list gives the list back, if it does so with each. -/
theorem mapM_map_eq_some {α β : Type} {write : α → β} {read? : β → Option α}
    (reads : ∀ part, read? (write part) = some part) (parts : List α) :
    (parts.map write).mapM read? = some parts := by
  induction parts with
  | nil => rfl
  | cons part parts ih => simp [List.mapM_cons, reads, ih]

theorem SymbolTable.ofJson?_toJson (table : SymbolTable) :
    ofJson? table.toJson = some table := by
  have decoded : (table.entries.map fun entry =>
      (some entry.1, ofWord entry.2)).mapM definition? = some table.entries :=
    mapM_map_eq_some (fun entry => by simp [definition?, toWord?_ofWord]) _
  simp only [toJson, record, List.map_map, Function.comp_def, ofJson?, decoded,
    Option.map_some, ofList_entries]

theorem SymbolTable.isWellFormed_toJson (table : SymbolTable) :
    table.toJson.IsWellFormed := by
  apply isWellFormed_record
  rw [List.forall_mem_map]
  exact fun entry _ => isWellFormed_ofWord entry.2

/-! ## Assemblies -/

def Assembly.ofJson? (value : Json) : Option Assembly := do
  let baseAddress ← (value.member? "base_address").bind toWord?
  let symbols ← (value.member? "symbols").bind SymbolTable.ofJson?
  match ← value.member? "instructions" with
  | .array elements =>
      let instructions ← elements.mapM Instruction.ofJson?
      return { baseAddress, symbols, instructions }
  | _ => none

/-- The assembly that a JSON text denotes. -/
def Assembly.read? (text : String) : Option Assembly :=
  (Json.read? text).bind ofJson?

theorem Assembly.ofJson?_toJson (assembly : Assembly) :
    ofJson? assembly.toJson = some assembly := by
  have instructions := mapM_map_eq_some Instruction.ofJson?_toJson
    assembly.instructions
  simp [ofJson?, toJson, record, member?, toWord?_ofWord,
    SymbolTable.ofJson?_toJson, instructions]

theorem Assembly.isWellFormed_toJson (assembly : Assembly) :
    assembly.toJson.IsWellFormed := by
  apply isWellFormed_record
  simp only [List.forall_mem_cons, List.not_mem_nil, false_implies,
    implies_true, and_true]
  exact ⟨isWellFormed_ofWord _, assembly.symbols.isWellFormed_toJson,
    .array (List.forall_mem_map.mpr fun instruction _ =>
      instruction.isWellFormed_toJson)⟩

theorem Assembly.read?_render_json (assembly : Assembly) :
    read? (assembly.render .json) = some assembly := by
  rw [read?, render, read?_pretty assembly.isWellFormed_toJson,
    Option.bind_some, ofJson?_toJson]

end MipsAssembler
