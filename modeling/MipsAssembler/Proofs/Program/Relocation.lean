import MipsAssembler.Proofs.Program.ControlTransfer

/-!
# Relocation

A program that is assembled for another base address is the same program at
another place.  All labels move by the difference of the two bases, jumps move
with them, and every other instruction keeps its word.  Whether a program is
refused does not depend on its place.
-/

namespace MipsAssembler

variable {instructions : InstructionSet} {symbols : SymbolTable}

/-! ## Moved symbol tables -/

namespace SymbolTable

theorem insertEntry_map_add (name : String) (address shift : UInt32)
    (entries : List (String × UInt32)) :
    insertEntry name (address + shift)
        (entries.map fun entry => (entry.1, entry.2 + shift)) =
      (insertEntry name address entries).map
        fun entry => (entry.1, entry.2 + shift) := by
  induction entries with
  | nil => rfl
  | cons entry rest ih =>
      rw [List.map_cons, insertEntry, insertEntry, ih]
      split
      · rfl
      split <;> rfl

/-- The table with all addresses moved. -/
def relocate (table : SymbolTable) (shift : UInt32) : SymbolTable where
  entries := table.entries.map fun entry => (entry.1, entry.2 + shift)
  ascending := by
    rw [List.pairwise_map]
    exact table.ascending
  folded := by
    rw [List.forall_mem_map]
    exact table.folded

theorem define_relocate (table : SymbolTable) (name : String)
    (address shift : UInt32) :
    (table.relocate shift).define name (address + shift) =
      (table.define name address).relocate shift :=
  ext (insertEntry_map_add ..)

theorem find?_relocate (table : SymbolTable) (shift : UInt32) (name : String) :
    (table.relocate shift).find? name =
      (table.find? name).map (· + shift) := by
  simp only [find?, relocate]
  induction table.entries with
  | nil => rfl
  | cons entry rest ih =>
      rw [List.map_cons, lookup_cons_entry, lookup_cons_entry, ih]
      split <;> rfl

theorem isSome_find?_relocate (table : SymbolTable) (shift : UInt32)
    (name : String) :
    ((table.relocate shift).find? name).isSome = (table.find? name).isSome := by
  rw [find?_relocate, Option.isSome_map]

end SymbolTable

theorem wordAddress_add (base shift : UInt32) (index : Nat) :
    wordAddress (base + shift) index = wordAddress base index + shift := by
  simp only [wordAddress, UInt32.add_assoc, UInt32.add_comm shift]

namespace LabelBinding

def relocate (binding : LabelBinding) (shift : UInt32) : LabelBinding :=
  ⟨binding.symbols.relocate shift, binding.address + shift⟩

theorem step_relocate (shift : UInt32) (binding : LabelBinding)
    (token : Token) :
    step instructions (binding.relocate shift) token =
      (step instructions binding token).relocate shift := by
  obtain ⟨kind, text⟩ := token
  cases kind with
  | label =>
      simp only [step, relocate, SymbolTable.define_relocate]
  | identifier =>
      have next : nextWord (binding.address + shift) =
          nextWord binding.address + shift := by
        simp only [nextWord, UInt32.add_assoc, UInt32.add_comm shift]
      simp only [step, relocate, next]
      split <;> rfl
  | _ => rfl

theorem walk_relocate (base shift : UInt32) (tokens : List Token) :
    walk instructions (base + shift) tokens =
      (walk instructions base tokens).relocate shift := by
  have started : start (base + shift) = (start base).relocate shift := rfl
  rw [walk, walk, started]
  exact List.foldl_hom (relocate · shift) (step_relocate shift)

end LabelBinding

theorem SymbolTable.ofTokens_relocate (settings : Settings) (shift : UInt32)
    (tokens : List Token) :
    ofTokens instructions
        { settings with baseAddress := settings.baseAddress + shift } tokens =
      (ofTokens instructions settings tokens).relocate shift :=
  congrArg LabelBinding.symbols (LabelBinding.walk_relocate ..)

/-! ## Errors -/

variable {first second : SymbolTable}

/-- Whether a token fills a slot depends on what is bound only. -/
theorem Slot.map_fill_eq (sameNames : ∀ name, (first.find? name).isSome =
      (second.find? name).isSome) (slot : Slot) (token : Token)
    (firstOperands secondOperands : Operands) :
    (slot.fill instructions first token firstOperands).map (fun _ => ()) =
      (slot.fill instructions second token secondOperands).map
        (fun _ => ()) := by
  unfold fill
  by_cases fits : token.kind ≠ slot.tokenKind
  · simp only [if_pos fits, Except.map]
  · simp only [if_neg fits]
    cases slot with
    | register field =>
        cases instructions.register? token.text <;> rfl
    | integer =>
        cases token.integer? <;> rfl
    | label =>
        have bound := sameNames token.text
        cases inFirst : first.find? token.text <;>
          cases inSecond : second.find? token.text <;>
          simp [inFirst, inSecond, Except.map] at bound ⊢
    | _ => rfl

namespace Encoding

/-- The instruction that has begun, without the operands it has so far. -/
def pending? (encoding : Encoding) : Option (Category × Slot × List Slot) :=
  encoding.current?.map fun current =>
    (current.category, current.slot, current.later)

theorem pending?_proceed (firstEncoding secondEncoding : Encoding)
    (category : Category) (firstOperands secondOperands : Operands)
    (slots : List Slot) :
    (firstEncoding.proceed category firstOperands slots).pending? =
      (secondEncoding.proceed category secondOperands slots).pending? := by
  cases slots <;> rfl

variable {firstEncoding secondEncoding : Encoding}

theorem map_pending?_step (sameNames : ∀ name, (first.find? name).isSome =
      (second.find? name).isSome)
    (samePending : firstEncoding.pending? = secondEncoding.pending?)
    (token : Token) :
    (step instructions first firstEncoding token).map pending? =
      (step instructions second secondEncoding token).map pending? := by
  unfold step
  cases atFirst : firstEncoding.current? with
  | none =>
      have atSecond : secondEncoding.current? = none := by
        simpa [pending?, atFirst] using samePending.symm
      simp only [atSecond, startInstruction]
      split
      · rfl
      split
      · rfl
      · exact congrArg Except.ok (pending?_proceed ..)
  | some current =>
      obtain ⟨other, atSecond, sameCurrent⟩ :
          ∃ other, secondEncoding.current? = some other ∧
            (other.category, other.slot, other.later) =
              (current.category, current.slot, current.later) := by
        simpa [pending?, atFirst] using samePending.symm
      simp only [Prod.mk.injEq] at sameCurrent
      obtain ⟨sameCategory, sameSlot, sameLater⟩ := sameCurrent
      have sameFill := @Slot.map_fill_eq instructions _ _ sameNames
        current.slot token current.operands other.operands
      simp only [atSecond, sameCategory, sameSlot, sameLater]
      cases atFill : current.slot.fill instructions first token
          current.operands <;>
        cases atOtherFill : current.slot.fill instructions second token
            other.operands <;>
        simp only [atFill, atOtherFill, Except.map, Except.error.injEq,
          reduceCtorEq] at sameFill ⊢
      · exact sameFill
      · exact congrArg Except.ok (pending?_proceed ..)

/-- Two runs over one token list come to the same slot or the same error. -/
theorem map_pending?_run (sameNames : ∀ name, (first.find? name).isSome =
      (second.find? name).isSome)
    (samePending : firstEncoding.pending? = secondEncoding.pending?)
    (tokens : List Token) :
    (run instructions first firstEncoding tokens).map pending? =
      (run instructions second secondEncoding tokens).map pending? := by
  induction tokens generalizing firstEncoding secondEncoding with
  | nil => exact congrArg Except.ok samePending
  | cons token tokens ih =>
      -- The two runs hold different operands, but they wait for the same slot.
      have sameStep := @map_pending?_step instructions _ _ _ _ sameNames
        samePending token
      unfold run
      cases atFirst : step instructions first firstEncoding token <;>
        cases atSecond : step instructions second secondEncoding token <;>
        simp only [atFirst, atSecond, Except.map, Except.error.injEq,
          Except.ok.injEq, reduceCtorEq] at sameStep ⊢
      · exact sameStep
      · exact ih sameStep

end Encoding

theorem Instruction.ofTokens_eq_error_iff_of_same_names
    (sameNames : ∀ name, (first.find? name).isSome =
      (second.find? name).isSome)
    (firstBase secondBase : UInt32) (tokens : List Token)
    (error : SyntacticError) :
    Instruction.ofTokens instructions first firstBase tokens = .error error ↔
      Instruction.ofTokens instructions second secondBase tokens =
        .error error := by
  have sameRun := @Encoding.map_pending?_run instructions _ _
    (.start firstBase) (.start secondBase) sameNames rfl tokens
  unfold Instruction.ofTokens
  cases atFirst : Encoding.run instructions first (.start firstBase) tokens <;>
    cases atSecond : Encoding.run instructions second (.start secondBase)
      tokens <;>
    simp only [atFirst, atSecond, Except.map, Except.error.injEq,
      Except.ok.injEq, reduceCtorEq] at sameRun ⊢
  · rw [sameRun]
  · next firstLast secondLast =>
    unfold Encoding.finish
    obtain ⟨_, _, _ | firstCurrent⟩ := firstLast <;>
      obtain ⟨_, _, _ | secondCurrent⟩ := secondLast <;>
      simp [Encoding.pending?] at sameRun ⊢
    rw [sameRun.2.1]

/-! ## Moved instructions -/

/-- How an instruction of a program is related to the one in its place in the
program that is moved by a distance. -/
inductive Instruction.Relocates (shift : UInt32) (isBranch : Prop) :
    Instruction → Instruction → Prop
  | register (opcode rs rt rd shamt funct : UInt32) :
      Relocates shift isBranch (.register opcode rs rt rd shamt funct)
        (.register opcode rs rt rd shamt funct)
  | immediate (opcode rs rt : UInt32) (imm : Int32) (noBranch : ¬ isBranch) :
      Relocates shift isBranch (.immediate opcode rs rt imm)
        (.immediate opcode rs rt imm)
  /-- A branch keeps its word, but not always the bits beyond it. -/
  | branch (opcode rs rt : UInt32) (imm moved : Int32) (branches : isBranch)
      (sameWord : (Instruction.immediate opcode rs rt moved).word =
        (Instruction.immediate opcode rs rt imm).word) :
      Relocates shift isBranch (.immediate opcode rs rt imm)
        (.immediate opcode rs rt moved)
  | jump (opcode address : UInt32) :
      Relocates shift isBranch (.jump opcode address)
        (.jump opcode (address + shift))

theorem Instruction.word_branch_add (opcode rs rt base shift : UInt32)
    (index position : Nat) :
    (immediate opcode rs rt (Int32.ofInt (branchDistance
        (wordAddress base index + shift)
        (wordAddress base position + shift)))).word =
      (immediate opcode rs rt (Int32.ofInt (branchDistance
        (wordAddress base index) (wordAddress base position)))).word := by
  rw [← UInt32.toNat_inj, toNat_word_immediate, toNat_word_immediate,
    toNat_int32_ofInt_mod, toNat_int32_ofInt_mod, ← wordAddress_add,
    ← wordAddress_add, branchDistance_wordAddress_mod,
    branchDistance_wordAddress_mod]

/-- Of a branch and its target, one may lie beyond the top of the address
space.  This changes the distance, but not the word. -/
example : (Instruction.immediate 4 8 9 (-0x3FFFFFFE)).word =
    (Instruction.immediate 4 8 9 2).word := by
  decide

namespace Phrase

variable {phrase : Phrase}

theorem isValid_relocate_iff {shift : UInt32} :
    phrase.IsValid instructions (symbols.relocate shift) ↔
      phrase.IsValid instructions symbols := by
  constructor <;> rintro ⟨fits, registers, integers, labels⟩ <;>
    refine ⟨fits, registers, integers, fun name member => ?_⟩
  · rw [← symbols.isSome_find?_relocate shift]
    exact labels name member
  · rw [symbols.isSome_find?_relocate]
    exact labels name member

/-- Only jumps have the jump format. -/
theorem exists_jumpTarget?_of_jump {here opcode address : UInt32}
    (denotes : phrase.instruction? instructions symbols here =
      some (.jump opcode address)) :
    ∃ label, phrase.operands.jumpTarget? = some label := by
  obtain ⟨⟨_, category⟩, values, -, -, takes, denotes⟩ :=
    instruction?_eq_some_iff.mp denotes
  generalize phrase.operands = operands at takes
  cases takes with
  | jump code target => exact ⟨target, rfl⟩
  | oneRegister funct role => cases role <;> cases values <;> cases denotes
  | _ => cases values <;> cases denotes

theorem relocates {base shift : UInt32} {index : Nat}
    {instruction moved : Instruction}
    (bound : ∀ label address, symbols.find? label = some address →
      ∃ position, address = wordAddress base position)
    (denotes : phrase.instruction? instructions symbols
      (wordAddress base index) = some instruction)
    (movedDenotes : phrase.instruction? instructions (symbols.relocate shift)
      (wordAddress (base + shift) index) = some moved) :
    instruction.Relocates shift phrase.operands.branchTarget?.isSome moved := by
  cases branches : phrase.operands.branchTarget? with
  | some label =>
      obtain ⟨opcode, rs, rt, everywhere⟩ :=
        instruction?_of_branchTarget? denotes branches
      rw [everywhere, Option.map_eq_some_iff] at denotes
      obtain ⟨target, found, rfl⟩ := denotes
      obtain ⟨position, rfl⟩ := bound label target found
      -- Branch and target move alike, though only one of them may wrap.
      rw [everywhere, SymbolTable.find?_relocate, found,
        wordAddress_add] at movedDenotes
      obtain rfl := Option.some.inj movedDenotes
      exact .branch _ _ _ _ _ rfl (Instruction.word_branch_add ..)
  | none =>
      cases jumps : phrase.operands.jumpTarget? with
      | some label =>
          obtain ⟨opcode, everywhere⟩ :=
            instruction?_of_jumpTarget? denotes jumps
          rw [everywhere, Option.map_eq_some_iff] at denotes
          obtain ⟨target, found, rfl⟩ := denotes
          rw [everywhere, SymbolTable.find?_relocate, found] at movedDenotes
          obtain rfl := Option.some.inj movedDenotes
          exact .jump opcode target
      | none =>
          have same := instruction?_of_no_target denotes branches jumps
            (symbols.relocate shift) (wordAddress (base + shift) index)
          obtain rfl := Option.some.inj (same.symm.trans movedDenotes)
          cases instruction with
          | register => exact .register ..
          | immediate => exact .immediate _ _ _ _ (by simp)
          | jump opcode address =>
              obtain ⟨label, isJump⟩ := exists_jumpTarget?_of_jump denotes
              rw [jumps] at isJump
              cases isJump

end Phrase

/-- A program is refused with the same error whatever its base address is.
Otherwise the labels and the jumps move with the base address, and all other
instructions keep their words, even if the addresses wrap in one run and not
in the other. -/
theorem assemble_relocate (settings : Settings) (base : UInt32)
    (source : String) :
    (∀ error, assemble settings source = .error error ↔
        assemble { settings with baseAddress := base } source =
          .error error) ∧
      ∀ assembly, assemble settings source = .ok assembly →
        ∃ moved,
          assemble { settings with baseAddress := base } source = .ok moved ∧
          moved.symbols.entries = assembly.symbols.entries.map (fun entry =>
            (entry.1, entry.2 + (base - settings.baseAddress))) ∧
          moved.instructions.length = assembly.instructions.length ∧
          ∃ (tokens : List Token) (phrases : List Phrase),
            Token.ofSource Mips32.instructionSet source = .ok tokens ∧
            (entryBody? settings.entryLabel tokens).getD [] =
              phrases.flatMap Phrase.tokens ∧
            (∀ phrase ∈ phrases,
              phrase.IsValid Mips32.instructionSet assembly.symbols) ∧
            phrases.length = assembly.instructions.length ∧
            ∀ (index : Nat) (_ : index < phrases.length)
                (_ : index < assembly.instructions.length)
                (_ : index < moved.instructions.length),
              assembly.instructions[index].Relocates
                (base - settings.baseAddress)
                phrases[index].operands.branchTarget?.isSome
                moved.instructions[index] := by
  -- The walk over the labels is stated for a base that is moved by a distance.
  obtain ⟨shift, rfl⟩ : ∃ shift, base = settings.baseAddress + shift :=
    ⟨base - settings.baseAddress,
      by rw [UInt32.add_comm, UInt32.sub_add_cancel]⟩
  have shiftEq : settings.baseAddress + shift - settings.baseAddress = shift := by
    rw [UInt32.add_comm, UInt32.add_sub_cancel]
  rw [shiftEq]
  constructor
  · intro error
    simp only [assemble_eq_error_iff, SymbolTable.ofTokens_relocate]
    have same (tokens : List Token) (syntactic : SyntacticError) :=
      @Instruction.ofTokens_eq_error_iff_of_same_names Mips32.instructionSet
        _ _ (fun name => (SymbolTable.isSome_find?_relocate
          (.ofTokens Mips32.instructionSet settings tokens) shift name).symm)
        settings.baseAddress (settings.baseAddress + shift)
        ((entryBody? settings.entryLabel tokens).getD []) syntactic
    simp only [same]
  intro assembly assembled
  obtain ⟨tokens, phrases, tokenized, -, symbolsEq, bodyEq, denote⟩ :=
    assemble_eq_ok_iff_phrases.mp assembled
  have valid := Phrase.exists_instructions?_iff.mp ⟨_, denote⟩
  obtain ⟨encoded, movedDenote⟩ :=
    Phrase.exists_instructions?_iff.mpr fun phrase member =>
      Phrase.isValid_relocate_iff.mpr (valid phrase member)
  have movedSymbols : assembly.symbols.relocate shift =
      SymbolTable.ofTokens Mips32.instructionSet
        { settings with baseAddress := settings.baseAddress + shift }
        tokens := by
    rw [SymbolTable.ofTokens_relocate, symbolsEq]
  have lengths := Phrase.length_eq_of_instructions? denote
  refine ⟨⟨_, assembly.symbols.relocate shift, encoded⟩,
    assemble_eq_ok_iff_phrases.mpr
      ⟨tokens, phrases, tokenized, rfl, movedSymbols, bodyEq, movedDenote⟩,
    rfl, (Phrase.length_eq_of_instructions? movedDenote).symm.trans lengths,
    tokens, phrases, tokenized, bodyEq, valid, lengths, ?_⟩
  intro index inPhrases inCode inMoved
  refine Phrase.relocates (fun label address found => ?_)
    (Phrase.instruction?_getElem denote inPhrases inCode)
    (Phrase.instruction?_getElem movedDenote inPhrases inMoved)
  rw [symbolsEq] at found
  exact LabelBinding.exists_wordAddress_of_find?_walk found

/-- Moved to the bottom of the address space, the labels are in order again. -/
theorem WrappedBranch.exists_moved :
    assemble settings source = .ok assembly ∧
      ∃ moved, assemble { settings with baseAddress := 0 } source = .ok moved ∧
        moved.symbols.entries = [("end", 8), ("main", 0)] := by
  obtain ⟨moved, ran, entriesEq, -⟩ :=
    (assemble_relocate settings 0 source).2 assembly assembled
  refine ⟨assembled, moved, ran, entriesEq.trans ?_⟩
  decide +kernel

end MipsAssembler
