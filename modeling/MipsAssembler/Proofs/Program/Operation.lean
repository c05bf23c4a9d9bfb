import MipsAssembler.Machine.Mips32
import MipsAssembler.Proofs.Machine.Word
import MipsAssembler.Proofs.Program.PhraseGrammar
import MipsAssembler.Proofs.Source.CanonicalLayout

/-!
# Operations and their reference words

An operation is an instruction with operands that a programmer means: names of
registers, integers and labels.  Its reference word is what an architecture
manual tells to put into the fields.  This file shows that the phrase of an
operation denotes an instruction with this word.
-/

namespace MipsAssembler

/-! ## Reference words -/

/-- The word that an architecture manual gives for operands.  A branch holds
the distance to its target, and a jump the address. -/
def Category.referenceWord? {Register Label : Type} (number : Register → Nat)
    (distance : Label → Int) (address : Label → Nat) :
    Category → OperandList Register Int Label → Option Nat
  | .threeRegister funct, .threeRegister rd rs rt =>
      some (registerWord 0 (number rs) (number rt) (number rd) 0 funct.toNat)
  | .twoRegister funct, .twoRegister rs rt =>
      some (registerWord 0 (number rs) (number rt) 0 0 funct.toNat)
  | .shift funct, .shift rd rt amount =>
      some (registerWord 0 0 (number rt) (number rd) (amount % 0x20).toNat
        funct.toNat)
  | .oneRegister funct .source, .oneRegister rs =>
      some (registerWord 0 (number rs) 0 0 0 funct.toNat)
  | .oneRegister funct .destination, .oneRegister rd =>
      some (registerWord 0 0 0 (number rd) 0 funct.toNat)
  | .extended opcode funct, .threeRegister rd rs rt =>
      some (registerWord opcode.toNat (number rs) (number rt) (number rd) 0
        funct.toNat)
  | .immediate opcode, .immediate rt rs integer =>
      some (immediateWord opcode.toNat (number rs) (number rt)
        (integer % 0x10000).toNat)
  | .loadUpper opcode, .loadUpper rt integer =>
      some (immediateWord opcode.toNat 0 (number rt)
        (integer % 0x10000).toNat)
  | .branch opcode (.againstZero selector), .branchOnZero rs target =>
      some (immediateWord opcode.toNat (number rs) selector.toNat
        (distance target % 0x10000).toNat)
  | .branch opcode .betweenRegisters, .branchOnPair rs rt target =>
      some (immediateWord opcode.toNat (number rs) (number rt)
        (distance target % 0x10000).toNat)
  | .memory opcode, .memory rt offset base =>
      some (immediateWord opcode.toNat (number base) (number rt)
        (offset % 0x10000).toNat)
  | .jump opcode, .jump target =>
      some (jumpWord opcode.toNat (address target % 0x4000000))
  | _, _ => none

/-- The codes of the category fit their fields. -/
def Category.codesFit : Category → Bool
  | threeRegister funct | twoRegister funct | shift funct | oneRegister funct _ =>
      funct < 0x40
  | extended opcode funct => opcode < 0x40 && funct < 0x40
  | branch opcode (.againstZero selector) => opcode < 0x40 && selector < 0x20
  | immediate opcode | loadUpper opcode | branch opcode .betweenRegisters
  | memory opcode | jump opcode => opcode < 0x40

theorem Mips32.codesFit_of_mem :
    ∀ row ∈ descriptors, row.category.codesFit = true := by
  decide

/-- Operand values denote an instruction with the reference word. -/
theorem Category.exists_denote?_referenceWord? {Register Label : Type}
    {category : Category} {operands : OperandList Register Int Label}
    {number : Register → Nat} {register : Register → UInt8} {here : UInt32}
    {distance : Label → Int} {address : Label → Nat} {target : Label → UInt32}
    (takes : category.Takes operands) (codes : category.codesFit = true)
    (registers : ∀ name ∈ operands.registers,
      (register name).toNat = number name ∧ number name < 0x20)
    (distances : ∀ label ∈ operands.labels,
      branchDistance here (target label) % 0x10000 = distance label % 0x10000)
    (addresses : ∀ label ∈ operands.labels,
      (target label).toNat % 0x4000000 = address label % 0x4000000) :
    ∃ instruction,
      category.denote? here (operands.map register id target) =
          some instruction ∧
        category.referenceWord? number distance address operands =
          some instruction.word.toNat := by
  cases takes
  case oneRegister funct role register =>
    cases role <;>
    · refine ⟨_, rfl, ?_⟩
      simp [OperandList.registers, codesFit, UInt8.lt_iff_toNat_lt]
        at registers codes
      simp [Instruction.toNat_word_register, referenceWord?, registers, codes,
        Nat.mod_eq_of_lt]
  case threeRegister | twoRegister | shift | extended =>
    refine ⟨_, rfl, ?_⟩
    simp [OperandList.registers, codesFit, UInt8.lt_iff_toNat_lt]
      at registers codes
    simp [Instruction.toNat_word_register, referenceWord?, registers, codes,
      Nat.mod_eq_of_lt, toNat_uint32_ofInt_mod]
  case immediate | loadUpper | memory =>
    refine ⟨_, rfl, ?_⟩
    simp [OperandList.registers, codesFit, UInt8.lt_iff_toNat_lt]
      at registers codes
    simp [Instruction.toNat_word_immediate, referenceWord?, registers, codes,
      Nat.mod_eq_of_lt, toNat_int32_ofInt_mod]
  case branchOnZero | branchOnPair =>
    refine ⟨.immediate _ _ _ (Int32.ofInt (branchDistance here (target _))),
      rfl, ?_⟩
    simp [OperandList.registers, OperandList.labels, codesFit,
      UInt8.lt_iff_toNat_lt] at registers codes distances
    simp [Instruction.toNat_word_immediate, referenceWord?, registers, codes,
      Nat.mod_eq_of_lt, toNat_int32_ofInt_mod, distances]
  case jump =>
    refine ⟨_, rfl, ?_⟩
    simp [OperandList.labels, codesFit, UInt8.lt_iff_toNat_lt]
      at codes addresses
    simp [Instruction.toNat_word_jump, referenceWord?, addresses, codes,
      Nat.mod_eq_of_lt]

/-! ## Canonical tokens -/

/-- The tokens of operands, with the punctuation that their form has. -/
def OperandList.tokens : OperandList String String String → List Token
  | threeRegister rd rs rt =>
      [⟨.register, rd⟩, ⟨.comma, ","⟩, ⟨.register, rs⟩, ⟨.comma, ","⟩,
        ⟨.register, rt⟩]
  | twoRegister rs rt => [⟨.register, rs⟩, ⟨.comma, ","⟩, ⟨.register, rt⟩]
  | shift rd rt amount =>
      [⟨.register, rd⟩, ⟨.comma, ","⟩, ⟨.register, rt⟩, ⟨.comma, ","⟩,
        ⟨.number, amount⟩]
  | oneRegister register => [⟨.register, register⟩]
  | immediate rt rs integer =>
      [⟨.register, rt⟩, ⟨.comma, ","⟩, ⟨.register, rs⟩, ⟨.comma, ","⟩,
        ⟨.number, integer⟩]
  | loadUpper rt integer =>
      [⟨.register, rt⟩, ⟨.comma, ","⟩, ⟨.number, integer⟩]
  | branchOnZero rs target =>
      [⟨.register, rs⟩, ⟨.comma, ","⟩, ⟨.identifier, target⟩]
  | branchOnPair rs rt target =>
      [⟨.register, rs⟩, ⟨.comma, ","⟩, ⟨.register, rt⟩, ⟨.comma, ","⟩,
        ⟨.identifier, target⟩]
  | memory rt offset base =>
      [⟨.register, rt⟩, ⟨.comma, ","⟩, ⟨.number, offset⟩, ⟨.openParen, "("⟩,
        ⟨.register, base⟩, ⟨.closeParen, ")"⟩]
  | jump target => [⟨.identifier, target⟩]

theorem OperandList.spells_tokens (operands : OperandList String String String) :
    operands.Spells operands.tokens := by
  cases operands <;> constructor

theorem OperandList.isCanonical_of_mem_tokens {instructions : InstructionSet}
    {operands : OperandList String String String}
    (registers : ∀ name ∈ operands.registers,
      Token.IsCanonical instructions ⟨.register, name⟩)
    (integers : ∀ text ∈ operands.integers,
      Token.IsCanonical instructions ⟨.number, text⟩)
    (labels : ∀ name ∈ operands.labels,
      Token.IsCanonical instructions ⟨.identifier, name⟩) :
    ∀ token ∈ operands.tokens, token.IsCanonical instructions := by
  cases operands <;>
    simp_all [tokens, OperandList.registers, OperandList.integers,
      OperandList.labels, Token.isCanonical_comma,
      Token.isCanonical_openParen, Token.isCanonical_closeParen]

namespace OperandList

variable {Register Integer Label Register' Integer' Label' Register''
  Integer'' Label'' : Type}

theorem registers_map (register : Register → Register')
    (integer : Integer → Integer') (label : Label → Label')
    (operands : OperandList Register Integer Label) :
    (operands.map register integer label).registers =
      operands.registers.map register := by
  cases operands <;> rfl

theorem integers_map (register : Register → Register')
    (integer : Integer → Integer') (label : Label → Label')
    (operands : OperandList Register Integer Label) :
    (operands.map register integer label).integers =
      operands.integers.map integer := by
  cases operands <;> rfl

theorem labels_map (register : Register → Register')
    (integer : Integer → Integer') (label : Label → Label')
    (operands : OperandList Register Integer Label) :
    (operands.map register integer label).labels = operands.labels.map label := by
  cases operands <;> rfl

/-- Operands whose spellings are found have the found values. -/
theorem traverse?_map {register : Register → Register'}
    {integer : Integer → Integer'} {label : Label → Label'}
    {register? : Register' → Option Register''}
    {integer? : Integer' → Option Integer''}
    {label? : Label' → Option Label''} {registerValue : Register → Register''}
    {integerValue : Integer → Integer''} {labelValue : Label → Label''}
    {operands : OperandList Register Integer Label}
    (registers : ∀ operand ∈ operands.registers,
      register? (register operand) = some (registerValue operand))
    (integers : ∀ operand ∈ operands.integers,
      integer? (integer operand) = some (integerValue operand))
    (labels : ∀ operand ∈ operands.labels,
      label? (label operand) = some (labelValue operand)) :
    (operands.map register integer label).traverse? register? integer? label? =
      some (operands.map registerValue integerValue labelValue) := by
  cases operands <;>
    simp_all [map, traverse?, OperandList.registers, OperandList.integers,
      OperandList.labels]

end OperandList

theorem Category.Takes.map {Register Integer Label Register' Integer'
      Label' : Type} {category : Category}
    {operands : OperandList Register Integer Label}
    (takes : category.Takes operands) (register : Register → Register')
    (integer : Integer → Integer') (label : Label → Label') :
    category.Takes (operands.map register integer label) := by
  cases takes <;> constructor

/-! ## Operations -/

/-- An instruction of the mnemonic table with operands from the register
table, integers that fit a word, and any labels. -/
structure Operation where
  row : Descriptor
  operands : OperandList String Int String
  known : row ∈ Mips32.descriptors
  takes : row.category.Takes operands
  registers : ∀ name ∈ operands.registers, name ∈ Mips32.registers
  integers : ∀ integer ∈ operands.integers, Literal.Fits integer

theorem Mips32.descriptor?_of_mem :
    ∀ row ∈ descriptors, instructionSet.descriptor? row.mnemonic = some row := by
  decide +kernel

theorem Mips32.register?_of_mem :
    ∀ name ∈ registers,
      instructionSet.register? name = some (UInt8.ofNat (registers.idxOf name)) ∧
        registers.idxOf name < 0x20 := by
  decide +kernel

theorem Mips32.toNat_registerNumber {name : String} (known : name ∈ registers) :
    (UInt8.ofNat (registers.idxOf name)).toNat = registers.idxOf name ∧
      registers.idxOf name < 0x20 := by
  have small := (register?_of_mem name known).2
  refine ⟨?_, small⟩
  rw [UInt8.toNat_ofNat']
  omega

theorem Mips32.isLowerWord_mnemonic :
    ∀ row ∈ descriptors, Text.isLowerWord row.mnemonic = true := by
  decide +kernel

theorem Mips32.isCanonical_register :
    ∀ name ∈ registers, Token.IsCanonical instructionSet ⟨.register, name⟩ := by
  have isLowerName : ∀ name ∈ registers, Text.isLowerName name = true := by
    decide +kernel
  intro name member
  refine Token.isCanonical_register (isLowerName name member) ?_
  rw [(register?_of_mem name member).1]
  rfl

namespace Operation

/-- The operation as it is written. -/
def phrase (operation : Operation) : Phrase where
  mnemonic := operation.row.mnemonic
  operands := operation.operands.map id Decimal.write id
  operandTokens := (operation.operands.map id Decimal.write id).tokens
  spells := OperandList.spells_tokens _

theorem phrase_fitsTable (operation : Operation) :
    operation.phrase.FitsTable Mips32.instructionSet :=
  ⟨operation.row, Mips32.descriptor?_of_mem _ operation.known,
    operation.takes.map _ _ _⟩

theorem labels_phrase (operation : Operation) :
    operation.phrase.operands.labels = operation.operands.labels := by
  rw [phrase, OperandList.labels_map, List.map_id]

theorem isCanonical_of_mem_tokens {operation : Operation}
    (labels : ∀ name ∈ operation.operands.labels,
      Text.isLowerWord name = true) :
    ∀ token ∈ operation.phrase.tokens,
      token.IsCanonical Mips32.instructionSet := by
  intro token member
  rcases List.mem_cons.mp member with rfl | member
  · exact Token.isCanonical_identifier
      (Mips32.isLowerWord_mnemonic _ operation.known)
  refine OperandList.isCanonical_of_mem_tokens ?_ ?_ ?_ token member
  · intro name inRegisters
    rw [OperandList.registers_map, List.map_id] at inRegisters
    exact Mips32.isCanonical_register _ (operation.registers name inRegisters)
  · intro text inIntegers
    rw [OperandList.integers_map] at inIntegers
    obtain ⟨integer, used, rfl⟩ := List.mem_map.mp inIntegers
    exact Token.isCanonical_number (operation.integers integer used)
  · intro name inLabels
    rw [OperandList.labels_map, List.map_id] at inLabels
    exact Token.isCanonical_identifier (labels name inLabels)

/-- The reference word of an operation at a place in a program whose labels
are at the given positions. -/
def referenceWord? (base : UInt32) (position : String → Nat) (index : Nat)
    (operation : Operation) : Option Nat :=
  operation.row.category.referenceWord? Mips32.registers.idxOf
    (fun label => (position label : Int) - index)
    (fun label => base.toNat + 4 * position label) operation.operands

/-- The phrase of an operation denotes an instruction with the reference word,
if its labels are bound where they stand. -/
theorem exists_instruction?_referenceWord? {operation : Operation}
    {symbols : SymbolTable} {base : UInt32} {position : String → Nat}
    (bound : ∀ label ∈ operation.operands.labels,
      symbols.find? label = some (wordAddress base (position label)))
    (index : Nat) :
    ∃ instruction,
      operation.phrase.instruction? Mips32.instructionSet symbols
          (wordAddress base index) = some instruction ∧
        operation.referenceWord? base position index =
          some instruction.word.toNat := by
  have registers : ∀ name ∈ operation.operands.registers,
      Mips32.instructionSet.register? name =
        some (UInt8.ofNat (Mips32.registers.idxOf name)) :=
    fun name member =>
      (Mips32.register?_of_mem name (operation.registers name member)).1
  have addresses : ∀ label ∈ operation.operands.labels,
      (wordAddress base (position label)).toNat % 0x4000000 =
        (base.toNat + 4 * position label) % 0x4000000 := by
    intro label member
    rw [toNat_wordAddress]
    omega
  have valuesFound : operation.phrase.values? Mips32.instructionSet symbols =
      some (operation.operands.map
        (fun name => UInt8.ofNat (Mips32.registers.idxOf name)) id
        fun label => wordAddress base (position label)) :=
    OperandList.traverse?_map registers
      (fun integer member => Token.integer?_write
        (operation.integers integer member)) bound
  obtain ⟨instruction, denotes, wordEq⟩ :=
    Category.exists_denote?_referenceWord? operation.takes
      (Mips32.codesFit_of_mem _ operation.known)
      (fun name member =>
        Mips32.toNat_registerNumber (operation.registers name member))
      (fun label _ => branchDistance_wordAddress_mod base index (position label))
      addresses
  exact ⟨instruction, Phrase.instruction?_eq_some_iff.mpr
    ⟨operation.row, _, Mips32.descriptor?_of_mem _ operation.known, valuesFound,
      operation.takes.map _ _ _, denotes⟩, wordEq⟩

end Operation

end MipsAssembler
