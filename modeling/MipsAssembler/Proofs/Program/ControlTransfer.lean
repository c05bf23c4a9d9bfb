import MipsAssembler.Proofs.Machine.WordField
import MipsAssembler.Proofs.Program.Assembly
import MipsAssembler.Proofs.Program.LabelAddresses

/-!
# Targets of branches and jumps

Only the label operand of a phrase refers to other places of a program.  This
file takes it apart from the other operands, and shows that the instruction
then leads to the address of the label: a branch by its distance, which is a
whole number of words, and a jump by the address itself.
-/

namespace MipsAssembler

/-! ## Label operands -/

namespace OperandList

variable {Register Integer Label : Type}

/-- The label that a branch goes to. -/
def branchTarget? : OperandList Register Integer Label → Option Label
  | branchOnZero _ target | branchOnPair _ _ target => some target
  | threeRegister .. | twoRegister .. | shift .. | oneRegister ..
  | immediate .. | loadUpper .. | memory .. | jump _ => none

/-- The label that a jump goes to. -/
def jumpTarget? : OperandList Register Integer Label → Option Label
  | jump target => some target
  | threeRegister .. | twoRegister .. | shift .. | oneRegister ..
  | immediate .. | loadUpper .. | memory .. | branchOnZero ..
  | branchOnPair .. => none

end OperandList

namespace Phrase

variable {instructions : InstructionSet} {symbols : SymbolTable}
  {here : UInt32} {phrase : Phrase} {instruction : Instruction} {label : String}

/-- The instruction of a branch depends on its place and on the address of its
target by the distance between them only. -/
theorem instruction?_of_branchTarget?
    (denotes : phrase.instruction? instructions symbols here = some instruction)
    (branches : phrase.operands.branchTarget? = some label) :
    ∃ opcode rs rt, ∀ symbols here,
      phrase.instruction? instructions symbols here =
        (symbols.find? label).map fun target =>
          .immediate opcode rs rt (Int32.ofInt (branchDistance here target)) := by
  obtain ⟨⟨_, category⟩, values, rowFound, valuesFound, takes, -⟩ :=
    instruction?_eq_some_iff.mp denotes
  obtain ⟨mnemonic, operands, operandTokens, spells⟩ := phrase
  cases operands with
  | branchOnZero rs target =>
      cases branches
      cases takes with
      | branchOnZero opcode selector =>
          simp only [values?, OperandList.traverse?, bind,
            Option.bind_eq_some_iff] at valuesFound
          obtain ⟨number, rsFound, -⟩ := valuesFound
          refine ⟨opcode.toUInt32, number.toUInt32, selector.toUInt32, ?_⟩
          intro symbols here
          cases targetFound : symbols.find? label <;>
            simp [instruction?, rowFound, values?, OperandList.traverse?,
              rsFound, targetFound, Category.denote?, branchDistance]
  | branchOnPair rs rt target =>
      cases branches
      cases takes with
      | branchOnPair opcode =>
          simp only [values?, OperandList.traverse?, bind,
            Option.bind_eq_some_iff] at valuesFound
          obtain ⟨first, rsFound, second, rtFound, -⟩ := valuesFound
          refine ⟨opcode.toUInt32, first.toUInt32, second.toUInt32, ?_⟩
          intro symbols here
          cases targetFound : symbols.find? label <;>
            simp [instruction?, rowFound, values?, OperandList.traverse?,
              rsFound, rtFound, targetFound, Category.denote?, branchDistance]
  | _ => cases branches

theorem instruction?_of_jumpTarget?
    (denotes : phrase.instruction? instructions symbols here = some instruction)
    (jumps : phrase.operands.jumpTarget? = some label) :
    ∃ opcode, ∀ symbols here,
      phrase.instruction? instructions symbols here =
        (symbols.find? label).map (Instruction.jump opcode) := by
  obtain ⟨⟨_, category⟩, values, rowFound, valuesFound, takes, -⟩ :=
    instruction?_eq_some_iff.mp denotes
  obtain ⟨mnemonic, operands, operandTokens, spells⟩ := phrase
  cases operands with
  | jump target =>
      cases jumps
      cases takes with
      | jump opcode =>
          refine ⟨opcode.toUInt32, ?_⟩
          intro symbols here
          cases targetFound : symbols.find? label <;>
            simp [instruction?, rowFound, values?, OperandList.traverse?,
              targetFound, Category.denote?]
  | _ => cases jumps

/-- The instruction of any other phrase is the same at every place. -/
theorem instruction?_of_no_target
    (denotes : phrase.instruction? instructions symbols here = some instruction)
    (noBranch : phrase.operands.branchTarget? = none)
    (noJump : phrase.operands.jumpTarget? = none) (otherSymbols : SymbolTable)
    (otherHere : UInt32) :
    phrase.instruction? instructions otherSymbols otherHere =
      some instruction := by
  obtain ⟨⟨_, category⟩, values, rowFound, valuesFound, takes, denotes⟩ :=
    instruction?_eq_some_iff.mp denotes
  -- Without a label operand the symbol table is never asked.
  have sameValues : phrase.values? instructions otherSymbols = some values := by
    rw [← valuesFound, values?, values?]
    cases operandsEq : phrase.operands with
    | branchOnZero | branchOnPair =>
        simp [operandsEq, OperandList.branchTarget?] at noBranch
    | jump => simp [operandsEq, OperandList.jumpTarget?] at noJump
    | _ => rfl
  refine instruction?_eq_some_iff.mpr
    ⟨_, values, rowFound, sameValues, takes, ?_⟩
  rw [← denotes]
  generalize phrase.operands = operands at *
  cases takes with
  | branchOnZero | branchOnPair => cases noBranch
  | jump => cases noJump
  | oneRegister funct role => cases role <;> cases values <;> rfl
  | _ => cases values <;> rfl

end Phrase

/-! ## Exact transfers -/

/-- Sign extension of sixteen bits restores the numbers that fit in them. -/
theorem bmod_eq_self_iff {integer : Int} :
    integer.bmod 0x10000 = integer ↔ -0x8000 ≤ integer ∧ integer ≤ 0x7FFF := by
  rw [Int.bmod_def]
  split <;> omega

namespace Instruction

/-- The instruction branches to the target: its distance is exact, and the
word keeps it if it fits in sixteen bits. -/
def BranchesTo (here target : UInt32) (instruction : Instruction) : Prop :=
  ∃ opcode rs rt imm, instruction = .immediate opcode rs rt imm ∧
    (here.toNat : Int) + 4 * imm.toInt = target.toNat ∧
    ((here.toNat : Int) +
          4 * WordField.imm.readSigned instruction.word.toNat =
        target.toNat ↔
      -0x8000 ≤ imm.toInt ∧ imm.toInt ≤ 0x7FFF)

/-- The instruction jumps to the target, and the word keeps the address if it
fits in 26 bits. -/
def JumpsTo (target : UInt32) (instruction : Instruction) : Prop :=
  ∃ opcode, instruction = .jump opcode target ∧
    (WordField.address.read instruction.word.toNat = target.toNat ↔
      target.toNat < 0x4000000)

theorem branchesTo_wordAddress (opcode rs rt base : UInt32)
    (index position : Nat) :
    (immediate opcode rs rt (Int32.ofInt (branchDistance
        (wordAddress base index) (wordAddress base position)))).BranchesTo
      (wordAddress base index) (wordAddress base position) := by
  have distance := four_mul_branchDistance_wordAddress base index position
  refine ⟨opcode, rs, rt, _, rfl, ?_, ?_⟩
  · rw [toInt_ofInt_branchDistance]
    omega
  · rw [toInt_ofInt_branchDistance, WordField.readSigned_imm_word,
      ← bmod_eq_self_iff]
    omega

theorem jumpsTo_self (opcode target : UInt32) :
    (jump opcode target).JumpsTo target := by
  refine ⟨opcode, rfl, ?_⟩
  rw [WordField.read_address_word]
  omega

end Instruction

/-- Every branch and every jump of a run leads to the address of its label.
The distance of a branch is exact, also for a base address that is no multiple
of four and for addresses that have wrapped. -/
theorem assemble_branchesTo_and_jumpsTo {settings : Settings} {source : String}
    {assembly : Assembly} (assembled : assemble settings source = .ok assembly) :
    ∃ (tokens : List Token) (phrases : List Phrase),
      Token.ofSource Mips32.instructionSet source = .ok tokens ∧
      (entryBody? settings.entryLabel tokens).getD [] =
        phrases.flatMap Phrase.tokens ∧
      (∀ phrase ∈ phrases,
        phrase.IsValid Mips32.instructionSet assembly.symbols) ∧
      phrases.length = assembly.instructions.length ∧
      ∀ (index : Nat) (_ : index < phrases.length)
          (_ : index < assembly.instructions.length) (label : String),
        (phrases[index].operands.branchTarget? = some label →
          ∃ target, assembly.symbols.find? label = some target ∧
            assembly.instructions[index].BranchesTo
              (wordAddress settings.baseAddress index) target) ∧
        (phrases[index].operands.jumpTarget? = some label →
          ∃ target, assembly.symbols.find? label = some target ∧
            assembly.instructions[index].JumpsTo target) := by
  obtain ⟨tokens, phrases, tokenized, -, symbolsEq, bodyEq, denote⟩ :=
    assemble_eq_ok_iff_phrases.mp assembled
  refine ⟨tokens, phrases, tokenized, bodyEq,
    Phrase.exists_instructions?_iff.mp ⟨_, denote⟩,
    Phrase.length_eq_of_instructions? denote, ?_⟩
  intro index inPhrases inCode label
  have denotes := Phrase.instruction?_getElem denote inPhrases inCode
  constructor
  · intro branches
    obtain ⟨opcode, rs, rt, everywhere⟩ :=
      Phrase.instruction?_of_branchTarget? denotes branches
    rw [everywhere, Option.map_eq_some_iff] at denotes
    obtain ⟨target, found, instructionEq⟩ := denotes
    refine ⟨target, found, ?_⟩
    -- Both ends lie a whole number of words after the base, wrapped or not.
    rw [symbolsEq] at found
    obtain ⟨position, rfl⟩ :=
      LabelBinding.exists_wordAddress_of_find?_walk found
    rw [← instructionEq]
    exact Instruction.branchesTo_wordAddress ..
  · intro jumps
    obtain ⟨opcode, everywhere⟩ :=
      Phrase.instruction?_of_jumpTarget? denotes jumps
    rw [everywhere, Option.map_eq_some_iff] at denotes
    obtain ⟨target, found, instructionEq⟩ := denotes
    refine ⟨target, found, ?_⟩
    rw [← instructionEq]
    exact Instruction.jumpsTo_self ..

/-! ### A branch across the top of the address space -/

namespace WrappedBranch

def settings : Settings :=
  { baseAddress := 0xFFFFFFFD }

def source : String :=
  "main: beq $t0, $t1, end\nj main\nend:"

def phrases : List Phrase :=
  [⟨"beq", .branchOnPair "t0" "t1" "end", _,
      .branchOnPair "t0" "t1" "end" "," ","⟩,
    ⟨"j", .jump "main", _, .jump "main"⟩]

def assembly : Assembly where
  baseAddress := 0xFFFFFFFD
  symbols := .ofList [("main", 0xFFFFFFFD), ("end", 5)]
  instructions := [.immediate 4 8 9 (-0x3FFFFFFE), .jump 2 0xFFFFFFFD]

theorem assembled : assemble settings source = .ok assembly := by
  have result : (assemble settings source).toOption = some assembly := by
    decide +kernel
  cases ran : assemble settings source with
  | error error => simp [ran, Except.toOption] at result
  | ok value => simpa [ran, Except.toOption] using result

theorem phrases_fitsTable :
    ∀ phrase ∈ phrases, phrase.FitsTable Mips32.instructionSet := by
  decide +kernel

/-- The target lies before the branch, as the addresses wrap in between; its
distance does not fit in the word. -/
theorem branchesTo_and_jumpsTo :
    (Instruction.immediate 4 8 9 (-0x3FFFFFFE)).BranchesTo 0xFFFFFFFD 5 ∧
      (Instruction.jump 2 0xFFFFFFFD).JumpsTo 0xFFFFFFFD := by
  obtain ⟨tokens, found, tokenized, bodyEq, valid, -, leads⟩ :=
    assemble_branchesTo_and_jumpsTo assembled
  have tokensEq : (entryBody? settings.entryLabel tokens).getD [] =
      phrases.flatMap Phrase.tokens := by
    have body : (Token.ofSource Mips32.instructionSet source).toOption.map
        (fun tokens => (entryBody? settings.entryLabel tokens).getD []) =
          some (phrases.flatMap Phrase.tokens) := by
      decide +kernel
    simpa [tokenized, Except.toOption] using body
  obtain rfl : found = phrases := Phrase.eq_of_flatMap_tokens
    (fun phrase member => (valid phrase member).fits) phrases_fitsTable
    (bodyEq.symm.trans tokensEq)
  constructor
  · obtain ⟨target, found, branches⟩ :=
      (leads 0 (by decide) (by decide) "end").1 rfl
    have targetEq : assembly.symbols.find? "end" = some 5 := by decide +kernel
    obtain rfl := Option.some.inj (found.symm.trans targetEq)
    exact branches
  · obtain ⟨target, found, jumps⟩ :=
      (leads 1 (by decide) (by decide) "main").2 rfl
    have targetEq : assembly.symbols.find? "main" = some 0xFFFFFFFD := by
      decide +kernel
    obtain rfl := Option.some.inj (found.symm.trans targetEq)
    exact jumps

end WrappedBranch

end MipsAssembler
