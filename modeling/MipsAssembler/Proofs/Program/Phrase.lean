import Mathlib.Tactic.Simproc.ExistsAndEq
import MipsAssembler.Program.Encoding

/-!
# Instruction phrases

An instruction is written as a phrase: a mnemonic and then its operands, with
commas and parentheses between them.  This file fixes the ten forms of operand
lists and the fields that their operands go to, one operand after another as
an assembly manual lists them, independently of how a run takes its tokens.
-/

namespace MipsAssembler

/-- Operands in the order in which they are written.  Registers, integers and
labels are given by their texts or by their values. -/
inductive OperandList (Register Integer Label : Type)
  | threeRegister (rd rs rt : Register)
  | twoRegister (rs rt : Register)
  | shift (rd rt : Register) (amount : Integer)
  | oneRegister (register : Register)
  | immediate (rt rs : Register) (integer : Integer)
  | loadUpper (rt : Register) (integer : Integer)
  | branchOnZero (rs : Register) (target : Label)
  | branchOnPair (rs rt : Register) (target : Label)
  | memory (rt : Register) (offset : Integer) (base : Register)
  | jump (target : Label)
  deriving DecidableEq

namespace OperandList

section Parts

variable {Register Integer Label : Type}

/-- The register operands in order. -/
def registers : OperandList Register Integer Label → List Register
  | threeRegister rd rs rt => [rd, rs, rt]
  | twoRegister rs rt => [rs, rt]
  | shift rd rt _ => [rd, rt]
  | oneRegister register => [register]
  | immediate rt rs _ => [rt, rs]
  | loadUpper rt _ => [rt]
  | branchOnZero rs _ => [rs]
  | branchOnPair rs rt _ => [rs, rt]
  | memory rt _ base => [rt, base]
  | jump _ => []

/-- The integer operand, if there is one. -/
def integers : OperandList Register Integer Label → List Integer
  | shift _ _ integer | immediate _ _ integer | loadUpper _ integer
  | memory _ integer _ => [integer]
  | threeRegister .. | twoRegister .. | oneRegister .. | branchOnZero ..
  | branchOnPair .. | jump .. => []

/-- The label operand, if there is one. -/
def labels : OperandList Register Integer Label → List Label
  | branchOnZero _ target | branchOnPair _ _ target | jump target => [target]
  | threeRegister .. | twoRegister .. | shift .. | oneRegister ..
  | immediate .. | loadUpper .. | memory .. => []

variable {Register' Integer' Label' : Type}

/-- Replace every operand by its image. -/
def map (register : Register → Register') (integer : Integer → Integer')
    (label : Label → Label') :
    OperandList Register Integer Label → OperandList Register' Integer' Label'
  | threeRegister rd rs rt =>
      threeRegister (register rd) (register rs) (register rt)
  | twoRegister rs rt => twoRegister (register rs) (register rt)
  | shift rd rt amount => shift (register rd) (register rt) (integer amount)
  | oneRegister operand => oneRegister (register operand)
  | immediate rt rs operand =>
      immediate (register rt) (register rs) (integer operand)
  | loadUpper rt operand => loadUpper (register rt) (integer operand)
  | branchOnZero rs target => branchOnZero (register rs) (label target)
  | branchOnPair rs rt target =>
      branchOnPair (register rs) (register rt) (label target)
  | memory rt offset base =>
      memory (register rt) (integer offset) (register base)
  | jump target => jump (label target)

/-- Look every operand up; one that is not found leaves nothing. -/
def traverse? (register? : Register → Option Register')
    (integer? : Integer → Option Integer') (label? : Label → Option Label') :
    OperandList Register Integer Label →
      Option (OperandList Register' Integer' Label')
  | threeRegister rd rs rt => do
      return threeRegister (← register? rd) (← register? rs) (← register? rt)
  | twoRegister rs rt => do
      return twoRegister (← register? rs) (← register? rt)
  | shift rd rt amount => do
      return shift (← register? rd) (← register? rt) (← integer? amount)
  | oneRegister operand => do
      return oneRegister (← register? operand)
  | immediate rt rs operand => do
      return immediate (← register? rt) (← register? rs) (← integer? operand)
  | loadUpper rt operand => do
      return loadUpper (← register? rt) (← integer? operand)
  | branchOnZero rs target => do
      return branchOnZero (← register? rs) (← label? target)
  | branchOnPair rs rt target => do
      return branchOnPair (← register? rs) (← register? rt) (← label? target)
  | memory rt offset base => do
      return memory (← register? rt) (← integer? offset) (← register? base)
  | jump target => do
      return jump (← label? target)

theorem isSome_traverse? (register? : Register → Option Register')
    (integer? : Integer → Option Integer') (label? : Label → Option Label')
    (operands : OperandList Register Integer Label) :
    (operands.traverse? register? integer? label?).isSome ↔
      (∀ register ∈ operands.registers, (register? register).isSome) ∧
        (∀ integer ∈ operands.integers, (integer? integer).isSome) ∧
          ∀ label ∈ operands.labels, (label? label).isSome := by
  cases operands <;>
    simp [traverse?, registers, integers, labels, Option.isSome_iff_exists,
      Option.bind_eq_some_iff, and_assoc, and_comm]

end Parts

/-- The tokens after a mnemonic are the given operands with their punctuation.
The text of a punctuation token does not matter. -/
inductive Spells : OperandList String String String → List Token → Prop
  | threeRegister (rd rs rt first second : String) :
      Spells (threeRegister rd rs rt)
        [⟨.register, rd⟩, ⟨.comma, first⟩, ⟨.register, rs⟩, ⟨.comma, second⟩,
          ⟨.register, rt⟩]
  | twoRegister (rs rt first : String) :
      Spells (twoRegister rs rt)
        [⟨.register, rs⟩, ⟨.comma, first⟩, ⟨.register, rt⟩]
  | shift (rd rt amount first second : String) :
      Spells (shift rd rt amount)
        [⟨.register, rd⟩, ⟨.comma, first⟩, ⟨.register, rt⟩, ⟨.comma, second⟩,
          ⟨.number, amount⟩]
  | oneRegister (register : String) :
      Spells (oneRegister register) [⟨.register, register⟩]
  | immediate (rt rs integer first second : String) :
      Spells (immediate rt rs integer)
        [⟨.register, rt⟩, ⟨.comma, first⟩, ⟨.register, rs⟩, ⟨.comma, second⟩,
          ⟨.number, integer⟩]
  | loadUpper (rt integer first : String) :
      Spells (loadUpper rt integer)
        [⟨.register, rt⟩, ⟨.comma, first⟩, ⟨.number, integer⟩]
  | branchOnZero (rs target first : String) :
      Spells (branchOnZero rs target)
        [⟨.register, rs⟩, ⟨.comma, first⟩, ⟨.identifier, target⟩]
  | branchOnPair (rs rt target first second : String) :
      Spells (branchOnPair rs rt target)
        [⟨.register, rs⟩, ⟨.comma, first⟩, ⟨.register, rt⟩, ⟨.comma, second⟩,
          ⟨.identifier, target⟩]
  | memory (rt offset base first left right : String) :
      Spells (memory rt offset base)
        [⟨.register, rt⟩, ⟨.comma, first⟩, ⟨.number, offset⟩,
          ⟨.openParen, left⟩, ⟨.register, base⟩, ⟨.closeParen, right⟩]
  | jump (target : String) : Spells (jump target) [⟨.identifier, target⟩]

end OperandList

/-! ## Operand lists of the categories -/

/-- The operand list has the form that the category demands. -/
inductive Category.Takes {Register Integer Label : Type} :
    Category → OperandList Register Integer Label → Prop
  | threeRegister (funct : UInt8) (rd rs rt : Register) :
      Takes (.threeRegister funct) (.threeRegister rd rs rt)
  | twoRegister (funct : UInt8) (rs rt : Register) :
      Takes (.twoRegister funct) (.twoRegister rs rt)
  | shift (funct : UInt8) (rd rt : Register) (amount : Integer) :
      Takes (.shift funct) (.shift rd rt amount)
  | oneRegister (funct : UInt8) (role : RegisterRole) (register : Register) :
      Takes (.oneRegister funct role) (.oneRegister register)
  | extended (opcode funct : UInt8) (rd rs rt : Register) :
      Takes (.extended opcode funct) (.threeRegister rd rs rt)
  | immediate (opcode : UInt8) (rt rs : Register) (integer : Integer) :
      Takes (.immediate opcode) (.immediate rt rs integer)
  | loadUpper (opcode : UInt8) (rt : Register) (integer : Integer) :
      Takes (.loadUpper opcode) (.loadUpper rt integer)
  | branchOnZero (opcode selector : UInt8) (rs : Register) (target : Label) :
      Takes (.branch opcode (.againstZero selector)) (.branchOnZero rs target)
  | branchOnPair (opcode : UInt8) (rs rt : Register) (target : Label) :
      Takes (.branch opcode .betweenRegisters) (.branchOnPair rs rt target)
  | memory (opcode : UInt8) (rt : Register) (offset : Integer)
      (base : Register) : Takes (.memory opcode) (.memory rt offset base)
  | jump (opcode : UInt8) (target : Label) :
      Takes (.jump opcode) (.jump target)

/-- The machine instruction that operand values denote at an address, if they
have the form of the category.  A field that no operand goes to is zero or
comes from the category; a branch holds the number of words to its target. -/
def Category.denote? (here : UInt32) :
    Category → OperandList UInt8 Int UInt32 → Option Instruction
  | .threeRegister funct, .threeRegister rd rs rt =>
      some (.register 0 rs.toUInt32 rt.toUInt32 rd.toUInt32 0 funct.toUInt32)
  | .twoRegister funct, .twoRegister rs rt =>
      some (.register 0 rs.toUInt32 rt.toUInt32 0 0 funct.toUInt32)
  | .shift funct, .shift rd rt amount =>
      some (.register 0 0 rt.toUInt32 rd.toUInt32 (UInt32.ofInt amount)
        funct.toUInt32)
  | .oneRegister funct .source, .oneRegister rs =>
      some (.register 0 rs.toUInt32 0 0 0 funct.toUInt32)
  | .oneRegister funct .destination, .oneRegister rd =>
      some (.register 0 0 0 rd.toUInt32 0 funct.toUInt32)
  | .extended opcode funct, .threeRegister rd rs rt =>
      some (.register opcode.toUInt32 rs.toUInt32 rt.toUInt32 rd.toUInt32 0
        funct.toUInt32)
  | .immediate opcode, .immediate rt rs integer =>
      some (.immediate opcode.toUInt32 rs.toUInt32 rt.toUInt32
        (Int32.ofInt integer))
  | .loadUpper opcode, .loadUpper rt integer =>
      some (.immediate opcode.toUInt32 0 rt.toUInt32 (Int32.ofInt integer))
  | .branch opcode (.againstZero selector), .branchOnZero rs target =>
      some (.immediate opcode.toUInt32 rs.toUInt32 selector.toUInt32
        (Int32.ofInt (((target.toNat : Int) - here.toNat).tdiv 4)))
  | .branch opcode .betweenRegisters, .branchOnPair rs rt target =>
      some (.immediate opcode.toUInt32 rs.toUInt32 rt.toUInt32
        (Int32.ofInt (((target.toNat : Int) - here.toNat).tdiv 4)))
  | .memory opcode, .memory rt offset base =>
      some (.immediate opcode.toUInt32 base.toUInt32 rt.toUInt32
        (Int32.ofInt offset))
  | .jump opcode, .jump target => some (.jump opcode.toUInt32 target)
  | _, _ => none

theorem Category.isSome_denote? (here : UInt32) (category : Category)
    (values : OperandList UInt8 Int UInt32) :
    (category.denote? here values).isSome ↔ category.Takes values := by
  constructor
  · intro found
    unfold Category.denote? at found
    split at found <;> first | constructor | cases found
  · intro takes
    cases takes with
    | oneRegister funct role register => cases role <;> rfl
    | _ => rfl

/-- Looking operands up does not change their form. -/
theorem Category.takes_iff_of_traverse? {Register Integer Label Register'
      Integer' Label' : Type} {register? : Register → Option Register'}
    {integer? : Integer → Option Integer'} {label? : Label → Option Label'}
    {operands : OperandList Register Integer Label}
    {values : OperandList Register' Integer' Label'} {category : Category}
    (found : operands.traverse? register? integer? label? = some values) :
    category.Takes values ↔ category.Takes operands := by
  cases operands <;>
    simp only [OperandList.traverse?, bind, Option.bind_eq_some_iff, pure,
      Option.some.injEq] at found
  case threeRegister | shift | immediate | branchOnPair | memory =>
    obtain ⟨_, _, _, _, _, _, rfl⟩ := found
    constructor <;> rintro ⟨⟩ <;> constructor
  case twoRegister | loadUpper | branchOnZero =>
    obtain ⟨_, _, _, _, rfl⟩ := found
    constructor <;> rintro ⟨⟩ <;> constructor
  case oneRegister | jump =>
    obtain ⟨_, _, rfl⟩ := found
    constructor <;> rintro ⟨⟩ <;> constructor

/-- The values of operands do not matter for their form, so zeros may stand in
their place. -/
theorem Category.takes_iff_isSome_denote? {category : Category}
    {operands : OperandList String String String} :
    category.Takes operands ↔
      (category.denote? 0
        (operands.map (fun _ => 0) (fun _ => 0) fun _ => 0)).isSome := by
  have zeros : operands.traverse? (fun _ => some (0 : UInt8))
      (fun _ => some (0 : Int)) (fun _ => some (0 : UInt32)) =
        some (operands.map (fun _ => 0) (fun _ => 0) fun _ => 0) := by
    cases operands <;> rfl
  rw [Category.isSome_denote?, Category.takes_iff_of_traverse? zeros]

instance (category : Category) (operands : OperandList String String String) :
    Decidable (category.Takes operands) :=
  decidable_of_iff _ Category.takes_iff_isSome_denote?.symm

/-! ## Phrases -/

/-- A mnemonic and operands, with the tokens in which the operands are
written. -/
structure Phrase where
  mnemonic : String
  operands : OperandList String String String
  operandTokens : List Token
  spells : operands.Spells operandTokens

namespace Phrase

@[ext]
theorem ext {first second : Phrase}
    (mnemonicEq : first.mnemonic = second.mnemonic)
    (operandsEq : first.operands = second.operands)
    (tokensEq : first.operandTokens = second.operandTokens) :
    first = second := by
  cases first
  cases second
  cases mnemonicEq
  cases operandsEq
  cases tokensEq
  rfl

/-- The tokens of a phrase. -/
def tokens (phrase : Phrase) : List Token :=
  ⟨.identifier, phrase.mnemonic⟩ :: phrase.operandTokens

/-- The mnemonic is in the table, and the operands have the form of its
category. -/
def FitsTable (instructions : InstructionSet) (phrase : Phrase) : Prop :=
  ∃ row, instructions.descriptor? phrase.mnemonic = some row ∧
    row.category.Takes phrase.operands

instance (instructions : InstructionSet) (phrase : Phrase) :
    Decidable (phrase.FitsTable instructions) :=
  decidable_of_iff
    ((instructions.descriptor? phrase.mnemonic).any
      fun row => row.category.Takes phrase.operands)
    (by simp [FitsTable, Option.any_eq_true])

/-- A phrase of the instruction set whose registers are in the table, whose
integers are signed 64-bit numbers, and whose labels are bound. -/
structure IsValid (instructions : InstructionSet) (symbols : SymbolTable)
    (phrase : Phrase) : Prop where
  fits : phrase.FitsTable instructions
  registers : ∀ name ∈ phrase.operands.registers,
    (instructions.register? name).isSome
  integers : ∀ text ∈ phrase.operands.integers,
    (Token.integer? ⟨.number, text⟩).isSome
  labels : ∀ name ∈ phrase.operands.labels, (symbols.find? name).isSome

/-- The values that the operand texts denote. -/
def values? (instructions : InstructionSet) (symbols : SymbolTable)
    (phrase : Phrase) : Option (OperandList UInt8 Int UInt32) :=
  phrase.operands.traverse? instructions.register?
    (fun text => Token.integer? ⟨.number, text⟩) symbols.find?

/-- The machine instruction that a phrase denotes at an address. -/
def instruction? (instructions : InstructionSet) (symbols : SymbolTable)
    (here : UInt32) (phrase : Phrase) : Option Instruction :=
  (instructions.descriptor? phrase.mnemonic).bind fun row =>
    (phrase.values? instructions symbols).bind (row.category.denote? here)

theorem instruction?_eq_some_iff {instructions : InstructionSet}
    {symbols : SymbolTable} {here : UInt32} {phrase : Phrase}
    {instruction : Instruction} :
    phrase.instruction? instructions symbols here = some instruction ↔
      ∃ row values, instructions.descriptor? phrase.mnemonic = some row ∧
        phrase.values? instructions symbols = some values ∧
        row.category.Takes phrase.operands ∧
        row.category.denote? here values = some instruction := by
  constructor
  · intro denotes
    obtain ⟨row, rowFound, denotes⟩ := Option.bind_eq_some_iff.mp denotes
    obtain ⟨values, valuesFound, denotes⟩ := Option.bind_eq_some_iff.mp denotes
    have takes : row.category.Takes values :=
      (Category.isSome_denote? here row.category values).mp (by simp [denotes])
    exact ⟨row, values, rowFound, valuesFound,
      (Category.takes_iff_of_traverse? valuesFound).mp takes, denotes⟩
  · rintro ⟨row, values, rowFound, valuesFound, -, denotes⟩
    exact Option.bind_eq_some_iff.mpr ⟨row, rowFound,
      Option.bind_eq_some_iff.mpr ⟨values, valuesFound, denotes⟩⟩

end Phrase

end MipsAssembler
