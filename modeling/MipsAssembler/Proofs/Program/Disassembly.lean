import MipsAssembler.Proofs.Machine.WordField
import MipsAssembler.Proofs.Program.Operation

/-!
# Disassembly

A machine word tells which phrase it was made of: the codes of its row give
the mnemonic, and its other fields hold the operands, integers and addresses
as far as they fit.  Two phrases give the same word only if they agree in all
of this.
-/

namespace MipsAssembler

/-! ## What a word tells -/

/-- A mnemonic with its operands.  Registers are given by their names; the
other operands are reduced to what their fields can hold. -/
structure Disassembly where
  mnemonic : String
  operands : OperandList String Nat Nat
  deriving DecidableEq

namespace OperandList

variable {Register Label : Type}

/-- Operands reduced to what their fields hold: five bits of a shift amount,
sixteen of an integer or a branch distance, and 26 of an address. -/
def residues (distance : Label → Int) (address : Label → Nat) :
    OperandList Register Int Label → OperandList Register Nat Nat
  | threeRegister rd rs rt => threeRegister rd rs rt
  | twoRegister rs rt => twoRegister rs rt
  | shift rd rt amount => shift rd rt (amount % 0x20).toNat
  | oneRegister register => oneRegister register
  | immediate rt rs integer => immediate rt rs (integer % 0x10000).toNat
  | loadUpper rt integer => loadUpper rt (integer % 0x10000).toNat
  | branchOnZero rs target =>
      branchOnZero rs (distance target % 0x10000).toNat
  | branchOnPair rs rt target =>
      branchOnPair rs rt (distance target % 0x10000).toNat
  | memory rt offset base => memory rt (offset % 0x10000).toNat base
  | jump target => jump (address target % 0x4000000)

end OperandList

/-- What the word of a phrase at an address can tell of the phrase. -/
def Phrase.disassembly? (symbols : SymbolTable) (here : UInt32)
    (phrase : Phrase) : Option Disassembly :=
  (phrase.operands.traverse? some (fun text => Token.integer? ⟨.number, text⟩)
    symbols.find?).map fun operands =>
      ⟨phrase.mnemonic,
        operands.residues (branchDistance here) UInt32.toNat⟩

/-! ## The disassembler -/

def Mips32.registerName (number : Nat) : String :=
  registers.getD number ""

open WordField Mips32 in
/-- The operands of the category that the fields of a word hold. -/
def Category.operandsOf (word : Nat) :
    Category → OperandList String Nat Nat
  | threeRegister _ | extended .. =>
      .threeRegister (registerName (rd.read word))
        (registerName (rs.read word)) (registerName (rt.read word))
  | twoRegister _ =>
      .twoRegister (registerName (rs.read word)) (registerName (rt.read word))
  | shift _ =>
      .shift (registerName (rd.read word)) (registerName (rt.read word))
        (shamt.read word)
  | oneRegister _ .source => .oneRegister (registerName (rs.read word))
  | oneRegister _ .destination => .oneRegister (registerName (rd.read word))
  | immediate _ =>
      .immediate (registerName (rt.read word)) (registerName (rs.read word))
        (imm.read word)
  | loadUpper _ =>
      .loadUpper (registerName (rt.read word)) (imm.read word)
  | branch _ (.againstZero _) =>
      .branchOnZero (registerName (rs.read word)) (imm.read word)
  | branch _ .betweenRegisters =>
      .branchOnPair (registerName (rs.read word)) (registerName (rt.read word))
        (imm.read word)
  | memory _ =>
      .memory (registerName (rt.read word)) (imm.read word)
        (registerName (rs.read word))
  | jump _ => .jump (address.read word)

/-- The mnemonic and the operands of a machine word. -/
def Mips32.disassemble? (word : UInt32) : Option Disassembly :=
  (descriptorOf? descriptors word.toNat).map fun row =>
    ⟨row.mnemonic, row.category.operandsOf word.toNat⟩

theorem Mips32.descriptors_contradict :
    ∀ first ∈ descriptors, ∀ second ∈ descriptors,
      first ≠ second → first.category.Contradicts second.category := by
  decide +kernel

theorem Mips32.registerName_idxOf :
    ∀ name ∈ registers, registerName (registers.idxOf name) = name := by
  decide +kernel

/-! ## Words of operands -/

variable {Register Label : Type} {distance : Label → Int}
  {address : Label → Nat}

/-- A word depends on nothing but the residues of the operands. -/
theorem Category.referenceWord?_residues (number : Register → Nat)
    (category : Category) (operands : OperandList Register Int Label) :
    category.referenceWord? number distance address operands =
      category.referenceWord? number Nat.cast id
        ((operands.residues distance address).map id Nat.cast id) := by
  have amountMod (amount : Int) :
      ((amount % 0x20).toNat : Int) % 0x20 = amount % 0x20 := by omega
  have integerMod (integer : Int) :
      ((integer % 0x10000).toNat : Int) % 0x10000 = integer % 0x10000 := by
    omega
  rcases category with funct | funct | funct | ⟨funct, _ | _⟩ |
      ⟨opcode, funct⟩ | opcode | opcode | ⟨opcode, selector | _⟩ | opcode |
      opcode <;>
    cases operands <;>
    simp only [referenceWord?, OperandList.residues, OperandList.map, id_eq,
      amountMod, integerMod, Nat.mod_mod]

/-- The fields of a word hold the codes and the operands that it was made
of. -/
theorem Category.matches_and_operandsOf {category : Category}
    {operands : OperandList String Int Label} {word : Nat}
    (takes : category.Takes operands) (codes : category.codesFit = true)
    (registers : ∀ name ∈ operands.registers, name ∈ Mips32.registers)
    (wordEq : category.referenceWord? Mips32.registers.idxOf distance address
      operands = some word) :
    category.Matches word ∧
      category.operandsOf word = operands.residues distance address := by
  have named : ∀ name ∈ operands.registers,
      Mips32.registerName (Mips32.registers.idxOf name) = name ∧
        Mips32.registers.idxOf name < 0x20 :=
    fun name member => ⟨Mips32.registerName_idxOf name (registers name member),
      (Mips32.toNat_registerNumber (registers name member)).2⟩
  have amountFits (amount : Int) : (amount % 0x20).toNat < 0x20 := by omega
  have integerFits (integer : Int) : (integer % 0x10000).toNat < 0x10000 := by
    omega
  have addressFits (target : Nat) : target % 0x4000000 < 0x4000000 := by omega
  cases takes
  case oneRegister funct role register =>
    cases role <;>
    · simp [OperandList.registers, codesFit, UInt8.lt_iff_toNat_lt]
        at named codes
      obtain rfl := Option.some.inj wordEq
      simp [Matches, Category.codes, operandsOf, OperandList.residues,
        WordField.read_registerWord, named, codes]
  case threeRegister | twoRegister | shift | extended =>
    simp [OperandList.registers, codesFit, UInt8.lt_iff_toNat_lt]
      at named codes
    obtain rfl := Option.some.inj wordEq
    simp [Matches, Category.codes, operandsOf, OperandList.residues,
      WordField.read_registerWord, named, codes, amountFits]
  case immediate | loadUpper | branchOnZero | branchOnPair | memory =>
    simp [OperandList.registers, codesFit, UInt8.lt_iff_toNat_lt]
      at named codes
    obtain rfl := Option.some.inj wordEq
    simp [Matches, Category.codes, operandsOf, OperandList.residues,
      WordField.read_immediateWord, named, codes, integerFits]
  case jump =>
    simp [codesFit, UInt8.lt_iff_toNat_lt] at codes
    obtain rfl := Option.some.inj wordEq
    simp [Matches, Category.codes, operandsOf, OperandList.residues,
      WordField.read_jumpWord, codes, addressFits]

/-! ## Fields that are never cut -/

/-- The fields that hold codes and registers. -/
def Instruction.codeFields : Instruction → List BitField
  | register opcode rs rt rd _ funct =>
      [⟨6, opcode⟩, ⟨5, rs⟩, ⟨5, rt⟩, ⟨5, rd⟩, ⟨6, funct⟩]
  | immediate opcode rs rt _ => [⟨6, opcode⟩, ⟨5, rs⟩, ⟨5, rt⟩]
  | jump opcode _ => [⟨6, opcode⟩]

theorem Category.bits_eq_of_mem_codeFields {category : Category} {here : UInt32}
    {values : OperandList UInt8 Int UInt32} {instruction : Instruction}
    (denotes : category.denote? here values = some instruction)
    (codes : category.codesFit = true)
    (registers : ∀ number ∈ values.registers, number.toNat < 0x20) :
    ∀ field ∈ instruction.codeFields, field.bits = field.value.toNat := by
  have takes := (category.isSome_denote? here values).mp (by simp [denotes])
  cases takes
  case oneRegister funct role register =>
    cases role <;>
    · obtain rfl := Option.some.inj denotes
      simp [OperandList.registers, codesFit, UInt8.lt_iff_toNat_lt]
        at registers codes
      simp [Instruction.codeFields, BitField.bits, Nat.mod_eq_of_lt, registers,
        codes]
  all_goals
    obtain rfl := Option.some.inj denotes
    simp [OperandList.registers, codesFit, UInt8.lt_iff_toNat_lt]
      at registers codes
    simp [Instruction.codeFields, BitField.bits, Nat.mod_eq_of_lt, registers,
      codes]

/-! ## Words of phrases -/

/-- If a register is found with its number only, the operands can be looked
up with the register names kept. -/
theorem OperandList.exists_traverse?_some {Name Number Text Name' Number' : Type}
    {operands : OperandList Register Text Name} {number : Register → Number}
    {register? : Register → Option Number} {integer? : Text → Option Number'}
    {label? : Name → Option Name'} {values : OperandList Number Number' Name'}
    (isNumber : ∀ name found, register? name = some found →
      number name = found)
    (found : operands.traverse? register? integer? label? = some values) :
    ∃ named, operands.traverse? some integer? label? = some named ∧
      named.registers = operands.registers ∧
      named.map number id id = values := by
  cases operands <;>
    simp only [traverse?, bind, Option.bind_eq_some_iff, pure,
      Option.some.injEq] at found
  case threeRegister =>
    obtain ⟨_, first, _, second, _, third, rfl⟩ := found
    exact ⟨_, rfl, rfl, by simp [map, isNumber _ _ first, isNumber _ _ second,
      isNumber _ _ third]⟩
  case shift | immediate | branchOnPair =>
    obtain ⟨_, first, _, second, _, third, rfl⟩ := found
    simp [traverse?, registers, map, third, isNumber _ _ first,
      isNumber _ _ second]
  case memory =>
    obtain ⟨_, first, _, second, _, third, rfl⟩ := found
    simp [traverse?, registers, map, second, isNumber _ _ first,
      isNumber _ _ third]
  case twoRegister =>
    obtain ⟨_, first, _, second, rfl⟩ := found
    simp [traverse?, registers, map, isNumber _ _ first, isNumber _ _ second]
  case loadUpper | branchOnZero =>
    obtain ⟨_, first, _, second, rfl⟩ := found
    simp [traverse?, registers, map, second, isNumber _ _ first]
  case oneRegister =>
    obtain ⟨_, first, rfl⟩ := found
    simp [traverse?, registers, map, isNumber _ _ first]
  case jump =>
    obtain ⟨_, first, rfl⟩ := found
    simp [traverse?, registers, map, first]

theorem Mips32.mem_registers_of_register? {name : String} {number : UInt8}
    (found : instructionSet.register? name = some number) :
    name ∈ registers := by
  obtain ⟨row, rowFound, -⟩ := Option.map_eq_some_iff.mp found
  have sameName : row.1 = name := by simpa using List.find?_some rowFound
  have named : ∀ row ∈ numberedRegisters, row.1 ∈ registers := by decide
  exact sameName ▸ named row (List.mem_of_find?_eq_some rowFound)

theorem Mips32.number_of_register? {name : String} {number : UInt8}
    (found : instructionSet.register? name = some number) :
    UInt8.ofNat (registers.idxOf name) = number := by
  have row := (register?_of_mem name (mem_registers_of_register? found)).1
  exact Option.some.inj (row.symm.trans found)

theorem Mips32.mem_of_descriptor? {name : String} {row : Descriptor}
    (found : instructionSet.descriptor? name = some row) :
    row ∈ descriptors ∧ row.mnemonic = name := by
  have rowFound : descriptors.find? (fun row => row.mnemonic = name) =
      some row := found
  refine ⟨List.mem_of_find?_eq_some rowFound, ?_⟩
  simpa using List.find?_some rowFound

namespace Phrase

variable {symbols : SymbolTable} {here : UInt32} {phrase : Phrase}
  {instruction : Instruction}

/-- A phrase that denotes an instruction is made of a row of the table and of
operands, which give its word. -/
theorem exists_referenceWord? (denotes : phrase.instruction?
      Mips32.instructionSet symbols here = some instruction) :
    ∃ row ∈ Mips32.descriptors, ∃ operands : OperandList String Int UInt32,
      phrase.disassembly? symbols here = some ⟨row.mnemonic,
        operands.residues (branchDistance here) UInt32.toNat⟩ ∧
      row.category.Takes operands ∧
      (∀ name ∈ operands.registers, name ∈ Mips32.registers) ∧
      row.category.referenceWord? Mips32.registers.idxOf (branchDistance here)
        UInt32.toNat operands = some instruction.word.toNat ∧
      ∀ field ∈ instruction.codeFields, field.bits = field.value.toNat := by
  obtain ⟨row, values, rowFound, valuesFound, takes, denotes⟩ :=
    instruction?_eq_some_iff.mp denotes
  obtain ⟨known, sameMnemonic⟩ := Mips32.mem_of_descriptor? rowFound
  obtain ⟨named, namedFound, registersEq, rfl⟩ :=
    OperandList.exists_traverse?_some
      (fun _ _ => Mips32.number_of_register?) valuesFound
  have inTable : ∀ name ∈ named.registers, name ∈ Mips32.registers := by
    intro name member
    obtain ⟨allFound, -⟩ := (OperandList.isSome_traverse? ..).mp
      (Option.isSome_iff_exists.mpr ⟨_, valuesFound⟩)
    rw [registersEq] at member
    obtain ⟨number, found⟩ :=
      Option.isSome_iff_exists.mp (allFound name member)
    exact Mips32.mem_registers_of_register? found
  have numbers : ∀ name ∈ named.registers,
      (UInt8.ofNat (Mips32.registers.idxOf name)).toNat =
          Mips32.registers.idxOf name ∧
        Mips32.registers.idxOf name < 0x20 :=
    fun name member => Mips32.toNat_registerNumber (inTable name member)
  have namedTakes : row.category.Takes named :=
    (Category.takes_iff_of_traverse? namedFound).mpr takes
  have codes := Mips32.codesFit_of_mem row known
  -- The labels are addresses by now, so that the residues are those of the
  -- addresses themselves.
  have distances : ∀ label ∈ named.labels,
      branchDistance here (id label) % 0x10000 =
        branchDistance here label % 0x10000 := fun _ _ => rfl
  have addresses : ∀ label ∈ named.labels,
      (id label).toNat % 0x4000000 = label.toNat % 0x4000000 := fun _ _ => rfl
  obtain ⟨same, sameDenotes, wordEq⟩ :=
    Category.exists_denote?_referenceWord? namedTakes codes numbers distances
      addresses
  obtain rfl := Option.some.inj (sameDenotes.symm.trans denotes)
  refine ⟨row, known, named, ?_, namedTakes, inTable, wordEq, ?_⟩
  · rw [disassembly?, namedFound, sameMnemonic]
    rfl
  · apply Category.bits_eq_of_mem_codeFields denotes codes
    intro number member
    rw [OperandList.registers_map] at member
    obtain ⟨name, inNamed, rfl⟩ := List.mem_map.mp member
    rw [(numbers name inNamed).1]
    exact (numbers name inNamed).2

/-- The disassembler gets out of a word all that a word can tell. -/
theorem exists_disassemble?_word (denotes : phrase.instruction?
      Mips32.instructionSet symbols here = some instruction) :
    ∃ told, phrase.disassembly? symbols here = some told ∧
      Mips32.disassemble? instruction.word = some told := by
  obtain ⟨row, known, operands, told, takes, inTable, wordEq, -⟩ :=
    exists_referenceWord? denotes
  obtain ⟨matched, operandsEq⟩ := Category.matches_and_operandsOf takes
    (Mips32.codesFit_of_mem row known) inTable wordEq
  refine ⟨_, told, ?_⟩
  rw [Mips32.disassemble?,
    descriptorOf?_eq_some Mips32.descriptors_contradict known matched,
    Option.map_some, operandsEq]

/-- Phrases have the same word exactly when a word tells the same of them. -/
theorem word_eq_iff_disassembly?_eq {otherSymbols : SymbolTable}
    {otherHere : UInt32} {other : Phrase} {otherInstruction : Instruction}
    (denotes : phrase.instruction? Mips32.instructionSet symbols here =
      some instruction)
    (otherDenotes : other.instruction? Mips32.instructionSet otherSymbols
      otherHere = some otherInstruction) :
    instruction.word = otherInstruction.word ↔
      phrase.disassembly? symbols here =
        other.disassembly? otherSymbols otherHere := by
  constructor
  · intro same
    obtain ⟨told, toldEq, read⟩ := exists_disassemble?_word denotes
    obtain ⟨otherTold, otherToldEq, otherRead⟩ :=
      exists_disassemble?_word otherDenotes
    rw [toldEq, otherToldEq, ← read, ← otherRead, same]
  · intro same
    obtain ⟨row, known, operands, told, -, -, wordEq, -⟩ :=
      exists_referenceWord? denotes
    obtain ⟨otherRow, otherKnown, otherOperands, otherTold, -, -, otherWordEq,
      -⟩ := exists_referenceWord? otherDenotes
    rw [told, otherTold, Option.some.injEq, Disassembly.mk.injEq] at same
    obtain ⟨mnemonicEq, residuesEq⟩ := same
    have rowEq : row = otherRow := by
      have found := Mips32.descriptor?_of_mem row known
      rw [mnemonicEq, Mips32.descriptor?_of_mem otherRow otherKnown] at found
      exact (Option.some.inj found).symm
    rw [Category.referenceWord?_residues, rowEq, residuesEq,
      ← Category.referenceWord?_residues, otherWordEq,
      Option.some.injEq] at wordEq
    exact UInt32.toNat_inj.mp wordEq.symm

end Phrase

/-- Machine code is unambiguous.  The words of a run tell the phrases that
they were made of, and no code or register is cut on the way.  Any two phrases
have the same word exactly when they have the same mnemonic, the same
registers and operands with the same residues. -/
theorem Mips32.disassemble?_word_ofTokens :
    (∀ (symbols : SymbolTable) (base : UInt32) (tokens : List Token)
        (encoded : List Instruction),
      Instruction.ofTokens instructionSet symbols base tokens = .ok encoded →
      ∃ phrases : List Phrase, tokens = phrases.flatMap Phrase.tokens ∧
        (∀ phrase ∈ phrases, phrase.IsValid instructionSet symbols) ∧
        (phrases.mapIdx fun index phrase =>
            phrase.disassembly? symbols (wordAddress base index)) =
          encoded.map (fun instruction => disassemble? instruction.word) ∧
        ∀ instruction ∈ encoded, (disassemble? instruction.word).isSome ∧
          ∀ field ∈ instruction.codeFields, field.bits = field.value.toNat) ∧
      ∀ (first second : Phrase) (firstSymbols secondSymbols : SymbolTable)
          (firstHere secondHere : UInt32)
          (firstInstruction secondInstruction : Instruction),
        first.instruction? instructionSet firstSymbols firstHere =
          some firstInstruction →
        second.instruction? instructionSet secondSymbols secondHere =
          some secondInstruction →
        (firstInstruction.word = secondInstruction.word ↔
          first.disassembly? firstSymbols firstHere =
            second.disassembly? secondSymbols secondHere) := by
  refine ⟨?_, fun _ _ _ _ _ _ _ _ => Phrase.word_eq_iff_disassembly?_eq⟩
  intro symbols base tokens encoded ran
  obtain ⟨phrases, tokensEq, denote⟩ := Instruction.ofTokens_eq_ok_iff.mp ran
  have lengths := Phrase.length_eq_of_instructions? denote
  refine ⟨phrases, tokensEq, Phrase.exists_instructions?_iff.mp ⟨_, denote⟩,
    ?_, ?_⟩
  · apply List.ext_getElem
    · simpa using lengths
    intro index inPhrases inEncoded
    simp only [List.length_mapIdx, List.length_map] at inPhrases inEncoded
    obtain ⟨told, toldEq, read⟩ := Phrase.exists_disassemble?_word
      (Phrase.instruction?_getElem denote inPhrases inEncoded)
    rw [List.getElem_mapIdx, List.getElem_map, toldEq, read]
  · intro instruction member
    obtain ⟨index, inEncoded, rfl⟩ := List.getElem_of_mem member
    have denotes := Phrase.instruction?_getElem denote
      (lengths.symm ▸ inEncoded) inEncoded
    obtain ⟨told, -, read⟩ := Phrase.exists_disassemble?_word denotes
    obtain ⟨-, -, -, -, -, -, -, kept⟩ := Phrase.exists_referenceWord? denotes
    exact ⟨by simp [read], kept⟩

/-! ### A negative integer -/

namespace NegativeImmediate

def tokens : List Token :=
  [⟨.identifier, "addi"⟩, ⟨.register, "t0"⟩, ⟨.comma, ","⟩,
    ⟨.register, "zero"⟩, ⟨.comma, ","⟩, ⟨.number, "-1"⟩]

theorem ofTokens_eq :
    Instruction.ofTokens Mips32.instructionSet .empty 0 tokens =
      .ok [.immediate 8 0 8 (-1)] :=
  rfl

/-- The word tells the integer modulo `2 ^ 16` only. -/
theorem disassembly?_eq :
    Instruction.ofTokens Mips32.instructionSet .empty 0 tokens =
        .ok [.immediate 8 0 8 (-1)] ∧
      ∃ phrases : List Phrase, tokens = phrases.flatMap Phrase.tokens ∧
        (phrases.mapIdx fun index phrase =>
            phrase.disassembly? .empty (wordAddress 0 index)) =
          [some ⟨"addi", .immediate "t0" "zero" 0xFFFF⟩] := by
  obtain ⟨phrases, tokensEq, -, told, -⟩ :=
    Mips32.disassemble?_word_ofTokens.1 .empty 0 tokens _ ofTokens_eq
  refine ⟨ofTokens_eq, phrases, tokensEq, told.trans ?_⟩
  decide +kernel

end NegativeImmediate

end MipsAssembler
