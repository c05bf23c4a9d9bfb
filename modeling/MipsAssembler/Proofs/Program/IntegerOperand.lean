import MipsAssembler.Proofs.Program.AppendedCode
import MipsAssembler.Proofs.Program.Operation
import MipsAssembler.Proofs.Source.Respelling

/-!
# Integer operands

An integer in the code of the entry label is accepted if it is in the range of
a word, in any spelling, and is refused as it is spelled otherwise.  The
instruction holds it modulo `2 ^ 32`, as an immediate operand in two's
complement, and the machine word holds what the field has room for.
-/

namespace MipsAssembler

open Source

variable {instructions : InstructionSet} {settings : Settings}

/-! ## What instructions hold -/

/-- The shift amount of the instruction is the number modulo `2 ^ 32`, and the
word holds its low five bits. -/
def Instruction.HoldsAmount (number : Int) (instruction : Instruction) : Prop :=
  ∃ opcode rs rt rd shamt funct,
    instruction = .register opcode rs rt rd shamt funct ∧
      (shamt.toNat : Int) = number % 0x100000000 ∧
      (WordField.shamt.read instruction.word.toNat : Int) = number % 0x20

/-- The immediate operand of the instruction is the number in two's complement,
and the word holds its low 16 bits. -/
def Instruction.HoldsImmediate (number : Int) (instruction : Instruction) :
    Prop :=
  ∃ opcode rs rt imm, instruction = .immediate opcode rs rt imm ∧
    imm.toInt = number.bmod 0x100000000 ∧
    (WordField.imm.read instruction.word.toNat : Int) = number % 0x10000

/-- The instruction is one that the category makes of an integer operand. -/
def Category.Stores (number : Int) (instruction : Instruction) :
    Category → Prop
  | shift _ => instruction.HoldsAmount number
  | immediate _ | loadUpper _ | memory _ => instruction.HoldsImmediate number
  | threeRegister _ | twoRegister _ | oneRegister .. | extended .. | branch ..
  | jump _ => False

theorem Instruction.holdsAmount_register (opcode rs rt rd funct : UInt32)
    (number : Int) :
    (register opcode rs rt rd (UInt32.ofInt number) funct).HoldsAmount
      number := by
  refine ⟨opcode, rs, rt, rd, UInt32.ofInt number, funct, rfl, ?_, ?_⟩
  · rw [toNat_uint32_ofInt]
    omega
  · rw [WordField.read_shamt_word, toNat_uint32_ofInt_mod]
    omega

theorem Instruction.holdsImmediate_immediate (opcode rs rt : UInt32)
    (number : Int) :
    (immediate opcode rs rt (Int32.ofInt number)).HoldsImmediate number := by
  refine ⟨opcode, rs, rt, Int32.ofInt number, rfl, Int32.toInt_ofInt, ?_⟩
  rw [WordField.read_imm_word, toNat_int32_ofInt_mod]
  omega

theorem Category.stores_of_denote? {category : Category} {here : UInt32}
    {values : OperandList UInt8 Int UInt32} {instruction : Instruction}
    {number : Int} (integers : values.integers = [number])
    (denotes : category.denote? here values = some instruction) :
    category.Stores number instruction := by
  have takes := (category.isSome_denote? here values).mp (by simp [denotes])
  cases takes with
  | shift | immediate | loadUpper | memory =>
      obtain rfl := List.singleton_inj.mp integers
      obtain rfl := Option.some.inj denotes
      first
        | exact Instruction.holdsAmount_register ..
        | exact Instruction.holdsImmediate_immediate ..
  | _ => cases integers

/-! ## Integers among operands -/

namespace OperandList

theorem Spells.integers_eq {operands : OperandList String String String}
    {tokens : List Token} (spells : operands.Spells tokens) {text : String}
    (member : ⟨.number, text⟩ ∈ tokens) : operands.integers = [text] := by
  cases spells <;> simp_all [integers]

/-- One integer may be exchanged for another where it is written. -/
theorem Spells.map_integer {operands : OperandList String String String}
    {lead trail : List Token} {old : String}
    (spells : operands.Spells (lead ++ ⟨.number, old⟩ :: trail))
    (text : String) :
    (operands.map id (fun _ => text) id).Spells
      (lead ++ ⟨.number, text⟩ :: trail) := by
  generalize written : lead ++ ⟨.number, old⟩ :: trail = tokens at spells
  cases spells <;>
    simp [List.append_eq_cons_iff, List.cons_eq_append_iff] at written
  case shift | immediate | loadUpper | memory =>
    obtain ⟨rfl, rfl, rfl⟩ := written
    constructor

/-- The integers that are found are the values of those that are looked up. -/
theorem integers_of_traverse? {Register Integer Label Register' Integer'
      Label' : Type} {register? : Register → Option Register'}
    {integer? : Integer → Option Integer'} {label? : Label → Option Label'}
    {operands : OperandList Register Integer Label}
    {values : OperandList Register' Integer' Label'}
    (found : operands.traverse? register? integer? label? = some values) :
    operands.integers.map integer? = values.integers.map some := by
  cases operands <;>
    simp only [traverse?, bind, Option.bind_eq_some_iff, pure,
      Option.some.injEq] at found
  case threeRegister | shift | immediate | branchOnPair | memory =>
    obtain ⟨_, _, _, _, _, _, rfl⟩ := found
    simp_all [integers]
  case twoRegister | loadUpper | branchOnZero =>
    obtain ⟨_, _, _, _, rfl⟩ := found
    simp_all [integers]
  case oneRegister | jump =>
    obtain ⟨_, _, rfl⟩ := found
    rfl

end OperandList

/-! ## Labels around a number -/

theorem LabelBinding.walk_number (base : UInt32) (before after : List Token)
    (text : String) :
    walk instructions base (before ++ ⟨.number, text⟩ :: after) =
      walk instructions base (before ++ after) := by
  rw [walk, walk, List.foldl_append, List.foldl_append, List.foldl_cons]
  rfl

/-- A number does not matter to the labels around it. -/
theorem SymbolTable.ofTokens_number (before after : List Token)
    (text : String) :
    ofTokens instructions settings (before ++ ⟨.number, text⟩ :: after) =
      ofTokens instructions settings (before ++ after) := by
  unfold ofTokens
  cases settings.labelScope with
  | everywhere =>
      exact congrArg _ (LabelBinding.walk_number settings.baseAddress ..)
  | afterText =>
      by_cases inBefore : (⟨.directive, "text"⟩ : Token) ∈ before
      · obtain ⟨skipped, scope, rfl, first⟩ :=
          List.eq_append_cons_of_mem inBefore
        simp only [List.append_assoc, List.cons_append,
          LabelScope.tokens_afterText_append first, LabelBinding.walk_number]
      by_cases inAfter : (⟨.directive, "text"⟩ : Token) ∈ after
      · obtain ⟨skipped, scope, rfl, first⟩ :=
          List.eq_append_cons_of_mem inAfter
        have firstWith : (⟨.directive, "text"⟩ : Token) ∉
            before ++ ⟨.number, text⟩ :: skipped := by
          simp [inBefore, first]
        have firstWithout : (⟨.directive, "text"⟩ : Token) ∉
            before ++ skipped := by
          simp [inBefore, first]
        rw [← List.cons_append, ← List.append_assoc, ← List.append_assoc,
          LabelScope.tokens_afterText_append firstWith,
          LabelScope.tokens_afterText_append firstWithout]
      · rw [LabelScope.tokens_afterText_of_notMem (by simp [inBefore, inAfter]),
          LabelScope.tokens_afterText_of_notMem (by simp [inBefore, inAfter]),
          LabelBinding.walk_number]

/-! ## A place for an integer -/

/-- With a zero between the tokens, the code of the entry label is a sequence of
valid phrases, and the zero is an operand of one of them. -/
structure IntegerPlace (instructions : InstructionSet) (settings : Settings)
    (before after : List Token) where
  /-- The tokens ahead of the entry label. -/
  skipped : List Token
  earlier : List Phrase
  /-- The phrase with the zero. -/
  phrase : Phrase
  later : List Phrase
  /-- The tokens from the next label on. -/
  rest : List Token
  /-- The operand tokens ahead of the zero. -/
  lead : List Token
  /-- The operand tokens after the zero. -/
  trail : List Token
  first : settings.entryToken ∉ skipped
  operandTokensEq : phrase.operandTokens = lead ++ ⟨.number, "0"⟩ :: trail
  beforeEq : before = skipped ++ settings.entryToken ::
    (earlier.flatMap Phrase.tokens ++ ⟨.identifier, phrase.mnemonic⟩ :: lead)
  afterEq : after = trail ++ (later.flatMap Phrase.tokens ++ rest)
  beginsWithLabel : ∀ token, rest.head? = some token → token.kind = .label
  valid : ∀ other ∈ earlier ++ phrase :: later, other.IsValid instructions
    (SymbolTable.ofTokens instructions settings
      (before ++ ⟨.number, "0"⟩ :: after))

namespace IntegerPlace

variable {before after : List Token}
  (place : IntegerPlace instructions settings before after)

include place

theorem spells : place.phrase.operands.Spells
    (place.lead ++ ⟨.number, "0"⟩ :: place.trail) :=
  place.operandTokensEq ▸ place.phrase.spells

/-- The phrase with another integer in the place of the zero. -/
def phraseWith (text : String) : Phrase where
  mnemonic := place.phrase.mnemonic
  operands := place.phrase.operands.map id (fun _ => text) id
  operandTokens := place.lead ++ ⟨.number, text⟩ :: place.trail
  spells := place.spells.map_integer text

/-- The code with another integer in the place of the zero. -/
def phrasesWith (text : String) : List Phrase :=
  place.earlier ++ place.phraseWith text :: place.later

theorem integers_phraseWith (text : String) :
    (place.phraseWith text).operands.integers = [text] :=
  (place.phraseWith text).spells.integers_eq (by simp [phraseWith])

/-- The code ends with the phrases, whatever the integer is. -/
theorem entryBody?_eq (text : String) :
    entryBody? settings.entryLabel (before ++ ⟨.number, text⟩ :: after) =
      some ((place.phrasesWith text).flatMap Phrase.tokens) := by
  have split : before ++ ⟨.number, text⟩ :: after =
      (place.skipped ++ settings.entryToken ::
        (place.phrasesWith text).flatMap Phrase.tokens) ++ place.rest := by
    refine (congrArg₂ (· ++ ⟨.number, text⟩ :: ·) place.beforeEq
      place.afterEq).trans ?_
    simp [phrasesWith, phraseWith, Phrase.tokens]
  rw [split, entryBody?_append_of_head? (by simp) place.beginsWithLabel,
    entryBody?_append place.first,
    List.takeWhile_eq_self_iff.mpr Phrase.kind_ne_label_of_mem_flatMap]

/-- Any integer may stand in the place of the zero. -/
theorem isValid_phraseWith {text : String}
    (isInteger : (Token.integer? ⟨.number, text⟩).isSome) :
    ∀ phrase ∈ place.phrasesWith text, phrase.IsValid instructions
      (SymbolTable.ofTokens instructions settings
        (before ++ ⟨.number, text⟩ :: after)) := by
  have valid := place.valid
  rw [SymbolTable.ofTokens_number] at valid ⊢
  intro phrase member
  rcases List.mem_append.mp member with inEarlier | member
  · exact valid phrase (List.mem_append_left _ inEarlier)
  rcases List.mem_cons.mp member with rfl | inLater
  · obtain ⟨⟨row, rowFound, takes⟩, registers, -, labels⟩ :=
      valid place.phrase (by simp)
    refine ⟨⟨row, rowFound, takes.map ..⟩, ?_, ?_, ?_⟩
    · simpa [phraseWith, OperandList.registers_map] using registers
    · simpa [place.integers_phraseWith] using isInteger
    · simpa [phraseWith, OperandList.labels_map] using labels
  · exact valid phrase (by simp [inLater])

/-- The instruction of the phrase holds the integer. -/
theorem stores_of_instruction? {text : String} {number : Int}
    (isInteger : Token.integer? ⟨.number, text⟩ = some number)
    {symbols : SymbolTable} {here : UInt32} {instruction : Instruction}
    (denotes : (place.phraseWith text).instruction? instructions symbols here =
      some instruction) :
    ∃ row, instructions.descriptor? place.phrase.mnemonic = some row ∧
      row.category.Stores number instruction := by
  obtain ⟨row, values, rowFound, valuesFound, -, denotes⟩ :=
    Phrase.instruction?_eq_some_iff.mp denotes
  have integers : values.integers = [number] := by
    have found := OperandList.integers_of_traverse? valuesFound
    rw [place.integers_phraseWith, List.map_singleton, isInteger] at found
    simpa using found.symm
  exact ⟨row, rowFound, Category.stores_of_denote? integers denotes⟩

/-- With a number that fits, the tokens are assembled, and the instruction of
the phrase holds the number. -/
theorem exists_ofTokens {number : Int} (fits : Literal.Fits number) :
    ∃ assembly row instruction,
      Assembly.ofTokens instructions settings
        (before ++ ⟨.number, Decimal.write number⟩ :: after) = .ok assembly ∧
      instructions.descriptor? place.phrase.mnemonic = some row ∧
      assembly.instructions[place.earlier.length]? = some instruction ∧
      row.category.Stores number instruction := by
  have isInteger := Token.integer?_write fits
  generalize Decimal.write number = text at isInteger ⊢
  obtain ⟨encoded, denote⟩ :=
    (@Phrase.exists_instructions?_iff _ _ settings.baseAddress _).mpr
      (place.isValid_phraseWith (by rw [isInteger]; rfl))
  have ran := Instruction.ofTokens_eq_ok_iff.mpr ⟨_, rfl, denote⟩
  have assembled : Assembly.ofTokens instructions settings
      (before ++ ⟨.number, text⟩ :: after) =
        .ok ⟨settings.baseAddress, SymbolTable.ofTokens instructions settings
          (before ++ ⟨.number, text⟩ :: after), encoded⟩ := by
    simp only [Assembly.ofTokens, place.entryBody?_eq, Option.getD_some, ran]
  have inPhrases :
      place.earlier.length < (place.phrasesWith text).length := by
    simp [phrasesWith]
  have inEncoded : place.earlier.length < encoded.length := by
    rwa [← Phrase.length_eq_of_instructions? denote]
  have atPlace : (place.phrasesWith text)[place.earlier.length] =
      place.phraseWith text := by
    simp [phrasesWith]
  have denotes := Phrase.instruction?_getElem denote inPhrases inEncoded
  rw [atPlace] at denotes
  obtain ⟨row, rowFound, stores⟩ :=
    place.stores_of_instruction? isInteger denotes
  exact ⟨_, row, _, assembled, rowFound, List.getElem?_eq_getElem inEncoded,
    stores⟩

end IntegerPlace

/-! ## Assembling -/

/-- What is wrong with a program, without the place where it is. -/
def AssemblyError.cause : AssemblyError → LexicalFault ⊕ SyntacticError
  | lexical error => .inl error.fault
  | syntactic error => .inr error

namespace Assembly

/-- Texts that differ in spellings only have one assembly, or one error but for
the position of a lexical fault. -/
theorem ofSource_of_respelled {source other : String}
    (respelled : Respelled instructions source.toList other.toList) :
    (ofSource instructions settings source).mapError AssemblyError.cause =
      (ofSource instructions settings other).mapError AssemblyError.cause := by
  have same := Token.ofSource_of_respelled respelled
  unfold ofSource
  cases tokenized : Token.ofSource instructions source with
  | error error =>
      cases otherTokenized : Token.ofSource instructions other with
      | error otherError =>
          rw [tokenized, otherTokenized] at same
          exact congrArg (Except.error ∘ Sum.inl) (Except.error.inj same)
      | ok tokens =>
          rw [tokenized, otherTokenized] at same
          cases same
  | ok tokens =>
      cases otherTokenized : Token.ofSource instructions other with
      | error otherError =>
          rw [tokenized, otherTokenized] at same
          cases same
      | ok otherTokens =>
          rw [tokenized, otherTokenized] at same
          obtain rfl : tokens = otherTokens := Except.ok.inj same
          rfl

/-- In the place of an integer operand a number is accepted, however it is
spelled, if it is in the range of a word, and it is refused as it is spelled
otherwise.  The instruction holds it, cut to its field in the word.  Programs
that differ in the spellings of accepted numbers have one assembly, or one error
but for the position of a lexical fault. -/
theorem ofSource_literal (instructions : InstructionSet) (settings : Settings) :
    (∀ (ahead behind : List Piece) (literal : Literal),
        IsNumberPlace instructions ahead behind →
        ∀ place : IntegerPlace instructions settings
            (ahead.filterMap Piece.token?) (behind.filterMap Piece.token?),
          literal.IsWellFormed →
          let outcome := ofSource instructions settings
            (textAround ahead behind literal)
          ((∃ assembly, outcome = .ok assembly) ↔
              Literal.Fits literal.value) ∧
            (¬ Literal.Fits literal.value →
              outcome = .error (.lexical
                ⟨.invalidNumber (String.ofList literal.spelling),
                  .counted (ahead.flatMap Piece.characters)⟩)) ∧
            ∀ assembly, outcome = .ok assembly → ∃ row instruction,
              instructions.descriptor? place.phrase.mnemonic = some row ∧
              assembly.instructions[place.earlier.length]? =
                some instruction ∧
              row.category.Stores literal.value instruction) ∧
      ∀ source other : String,
        Respelled instructions source.toList other.toList →
        (ofSource instructions settings source).mapError AssemblyError.cause =
          (ofSource instructions settings other).mapError
            AssemblyError.cause := by
  refine ⟨fun ahead behind literal isPlace place formed => ?_,
    fun source other => ofSource_of_respelled⟩
  intro outcome
  have refused (unfit : ¬ Literal.Fits literal.value) :
      outcome = .error (.lexical
        ⟨.invalidNumber (String.ofList literal.spelling),
          .counted (ahead.flatMap Piece.characters)⟩) := by
    simp only [outcome, ofSource, isPlace.ofSource_of_not_fits formed unfit]
  have accepted (fits : Literal.Fits literal.value) :
      ∃ assembly row instruction, outcome = .ok assembly ∧
        instructions.descriptor? place.phrase.mnemonic = some row ∧
        assembly.instructions[place.earlier.length]? = some instruction ∧
        row.category.Stores literal.value instruction := by
    obtain ⟨assembly, row, instruction, assembled, stores⟩ :=
      place.exists_ofTokens fits
    refine ⟨assembly, row, instruction, ?_, stores⟩
    simp only [outcome, ofSource, isPlace.ofSource_of_fits formed fits,
      assembled]
  have fits_of_ok {assembly : Assembly} (assembled : outcome = .ok assembly) :
      Literal.Fits literal.value := by
    by_contra unfit
    rw [refused unfit] at assembled
    cases assembled
  refine ⟨⟨?_, ?_⟩, refused, ?_⟩
  · rintro ⟨assembly, assembled⟩
    exact fits_of_ok assembled
  · intro fits
    obtain ⟨assembly, -, -, assembled, -⟩ := accepted fits
    exact ⟨assembly, assembled⟩
  · intro assembly assembled
    obtain ⟨other, row, instruction, otherAssembled, stores⟩ :=
      accepted (fits_of_ok assembled)
    obtain rfl : other = assembly :=
      Except.ok.inj (otherAssembled.symm.trans assembled)
    exact ⟨row, instruction, stores⟩

end Assembly

/-! ### Numbers at the ends of the range -/

namespace ExtremeOffset

def ahead : List Piece :=
  [.lexeme ⟨.label, "main"⟩ ['m', 'a', 'i', 'n', ':'],
    .lexeme ⟨.identifier, "lw"⟩ ['L', 'W'], .blank ' ',
    .lexeme ⟨.register, "t0"⟩ ['$', 't', '0'], .lexeme ⟨.comma, ","⟩ [',']]

def behind : List Piece :=
  [.lexeme ⟨.openParen, "("⟩ ['('], .lexeme ⟨.register, "sp"⟩ ['$', 's', 'p'],
    .lexeme ⟨.closeParen, ")"⟩ [')']]

theorem isNumberPlace : IsNumberPlace Mips32.instructionSet ahead behind := by
  simp only [IsNumberPlace, ahead, behind, List.flatMap_cons,
    List.flatMap_nil, List.append_assoc, List.cons_append, List.nil_append]
  refine .cons (.label ['m', 'a', 'i', 'n']
    ⟨List.all_eq_true.mp rfl, 'm', ['a', 'i', 'n'], rfl, rfl⟩) trivial ?_
  refine .cons (.identifier ['L', 'W']
    ⟨List.all_eq_true.mp rfl, 'L', ['W'], rfl, rfl⟩)
    ⟨atTerminator_cons (by decide) _, nofun⟩ ?_
  refine .cons rfl trivial ?_
  refine .cons (.register ['t', '0'] (List.all_eq_true.mp rfl)
    (by decide +kernel)) (atTerminator_cons (by decide) _) ?_
  refine .cons .comma trivial ?_
  refine .cons (.number (.ofInt 0) (Literal.ofInt_isWellFormed 0) (by decide))
    (atTerminator_cons (by decide) _) ?_
  refine .cons .openParen trivial ?_
  refine .cons (.register ['s', 'p'] (List.all_eq_true.mp rfl)
    (by decide +kernel)) (atTerminator_cons (by decide) _) ?_
  exact .cons .closeParen trivial .nil

def place : IntegerPlace Mips32.instructionSet {}
    (ahead.filterMap Piece.token?) (behind.filterMap Piece.token?) where
  skipped := []
  earlier := []
  phrase := ⟨"lw", .memory "t0" "0" "sp", _, .memory "t0" "0" "sp" "," "(" ")"⟩
  later := []
  rest := []
  lead := [⟨.register, "t0"⟩, ⟨.comma, ","⟩]
  trail := [⟨.openParen, "("⟩, ⟨.register, "sp"⟩, ⟨.closeParen, ")"⟩]
  first := by simp
  operandTokensEq := rfl
  beforeEq := by decide +kernel
  afterEq := rfl
  beginsWithLabel := nofun
  valid := by
    rintro phrase (- | ⟨-, ⟨⟩⟩)
    exact ⟨⟨⟨"lw", .memory 0x23⟩, by decide +kernel, .memory ..⟩,
      by decide +kernel, by decide +kernel, by simp [OperandList.labels]⟩

/-- The least number, with zeros ahead of it. -/
def least : Literal :=
  ⟨true, ['0', 'X'], .hexadecimal, "00000080000000".toList⟩

def greatest : Literal :=
  ⟨false, ['0', 'x'], .hexadecimal, "fFfFfFfF".toList⟩

def greatestDecimal : Literal :=
  ⟨false, [], .decimal, "4294967295".toList⟩

def tooGreat : Literal :=
  ⟨false, [], .decimal, "04294967296".toList⟩

theorem isWellFormed :
    least.IsWellFormed ∧ greatest.IsWellFormed ∧ greatestDecimal.IsWellFormed ∧
      tooGreat.IsWellFormed :=
  ⟨⟨.upperHexadecimal, by decide, List.all_eq_true.mp (by decide)⟩,
    ⟨.hexadecimal, by decide, List.all_eq_true.mp (by decide)⟩,
    ⟨.decimal, by decide, List.all_eq_true.mp (by decide)⟩,
    ⟨.decimal, by decide, List.all_eq_true.mp (by decide)⟩⟩

/-- The least number is accepted and held, the one after the greatest number is
refused, and two spellings of the greatest number do not differ. -/
theorem ofSource_extremes :
    (∃ assembly instruction,
        assemble {} "main:LW $t0,-0X00000080000000($sp)" = .ok assembly ∧
          assembly.instructions[0]? = some instruction ∧
          instruction.HoldsImmediate (-0x80000000)) ∧
      assemble {} "main:LW $t0,04294967296($sp)" =
        .error (.lexical ⟨.invalidNumber "04294967296", ⟨1, 13⟩⟩) ∧
      (assemble {} "main:LW $t0,0xfFfFfFfF($sp)").mapError
          AssemblyError.cause =
        (assemble {} "main:LW $t0,4294967295($sp)").mapError
          AssemblyError.cause := by
  obtain ⟨leastFormed, greatestFormed, decimalFormed, tooGreatFormed⟩ :=
    isWellFormed
  obtain ⟨atPlace, respelled⟩ :=
    Assembly.ofSource_literal Mips32.instructionSet {}
  refine ⟨?_, ?_, ?_⟩
  · obtain ⟨accepted, -, holds⟩ :=
      atPlace ahead behind least isNumberPlace place leastFormed
    obtain ⟨assembly, assembled⟩ := accepted.mpr (by decide +kernel)
    obtain ⟨row, instruction, rowFound, found, stores⟩ :=
      holds assembly assembled
    have rowEq : Mips32.instructionSet.descriptor? place.phrase.mnemonic =
        some ⟨"lw", .memory 0x23⟩ := by
      decide +kernel
    obtain rfl := Option.some.inj (rowFound.symm.trans rowEq)
    have valueEq : least.value = -0x80000000 := by decide +kernel
    rw [valueEq] at stores
    have sourceEq : textAround ahead behind least =
        "main:LW $t0,-0X00000080000000($sp)" := by
      decide +kernel
    rw [← sourceEq]
    exact ⟨assembly, instruction, assembled, found, stores⟩
  · have sourceEq : textAround ahead behind tooGreat =
        "main:LW $t0,04294967296($sp)" := by
      decide +kernel
    have position : Position.counted (ahead.flatMap Piece.characters) =
        ⟨1, 13⟩ := by
      decide +kernel
    rw [← sourceEq, ← position]
    exact (atPlace ahead behind tooGreat isNumberPlace place
      tooGreatFormed).2.1 (by decide +kernel)
  · have sourceEq : textAround ahead behind greatest =
        "main:LW $t0,0xfFfFfFfF($sp)" := by
      decide +kernel
    have otherEq : textAround ahead behind greatestDecimal =
        "main:LW $t0,4294967295($sp)" := by
      decide +kernel
    rw [← sourceEq, ← otherEq]
    exact respelled _ _ (isNumberPlace.respelled greatestFormed decimalFormed
      (by decide +kernel) (by decide +kernel))

end ExtremeOffset

end MipsAssembler
