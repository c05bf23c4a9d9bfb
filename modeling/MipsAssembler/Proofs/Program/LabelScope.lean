import Mathlib.Data.List.TakeWhile
import MipsAssembler.Program.Rendering
import MipsAssembler.Proofs.Program.EntryLabel
import MipsAssembler.Proofs.Program.LockStep
import MipsAssembler.Proofs.Program.Relocation

/-!
# The scope of labels

Labels may be bound in the whole source text, or only after its first `.text`
directive.  The whole text binds every name that the part after the directive
binds, at a later address: the mnemonics ahead of the directive are counted,
too.  The code of the entry label keeps its place, so its branches and jumps
reach that many words farther, and everything else stays as it is.
-/

namespace MipsAssembler

variable {instructions : InstructionSet} {symbols : SymbolTable}

/-! ## Tokens ahead of the scope -/

/-- The tokens ahead of the first `.text` directive, if there is one. -/
def tokensBeforeText (tokens : List Token) : List Token :=
  if ⟨.directive, "text"⟩ ∈ tokens then
    tokens.takeWhile (· ≠ ⟨.directive, "text"⟩)
  else
    []

theorem ne_textDirective_of_notMem {before : List Token}
    (absent : ⟨.directive, "text"⟩ ∉ before) :
    ∀ token ∈ before, decide (token ≠ ⟨.directive, "text"⟩) = true := by
  intro token inBefore
  apply decide_eq_true
  rintro rfl
  exact absent inBefore

theorem LabelScope.tokens_afterText_append {before : List Token}
    (first : ⟨.directive, "text"⟩ ∉ before) (rest : List Token) :
    afterText.tokens (before ++ ⟨.directive, "text"⟩ :: rest) = rest := by
  rw [tokens, List.dropWhile_append_of_pos (ne_textDirective_of_notMem first)]
  simp

theorem LabelScope.tokens_afterText_of_notMem {tokens : List Token}
    (absent : ⟨.directive, "text"⟩ ∉ tokens) :
    afterText.tokens tokens = tokens := by
  have skipsAll : tokens.dropWhile (· ≠ ⟨.directive, "text"⟩) = [] := by
    rw [List.dropWhile_eq_nil_iff]
    exact ne_textDirective_of_notMem absent
  rw [LabelScope.tokens, skipsAll]

theorem tokensBeforeText_append {before : List Token}
    (first : ⟨.directive, "text"⟩ ∉ before) (rest : List Token) :
    tokensBeforeText (before ++ ⟨.directive, "text"⟩ :: rest) = before := by
  rw [tokensBeforeText, if_pos (by simp),
    List.takeWhile_append_of_pos (ne_textDirective_of_notMem first)]
  simp

/-- Up to the scope there are as many mnemonics as ahead of the directive. -/
theorem exists_append_tokens_afterText (tokens : List Token) :
    ∃ skipped, tokens = skipped ++ LabelScope.afterText.tokens tokens ∧
      instructions.mnemonicCount skipped =
        instructions.mnemonicCount (tokensBeforeText tokens) := by
  by_cases member : (⟨.directive, "text"⟩ : Token) ∈ tokens
  · obtain ⟨before, after, rfl, first⟩ := List.eq_append_cons_of_mem member
    refine ⟨before ++ [⟨.directive, "text"⟩], ?_, ?_⟩
    · rw [LabelScope.tokens_afterText_append first, List.append_assoc,
        List.singleton_append]
    · rw [tokensBeforeText_append first, InstructionSet.mnemonicCount_append]
      simp [InstructionSet.mnemonicCount, InstructionSet.counts]
  · refine ⟨[], ?_, ?_⟩
    · rw [LabelScope.tokens_afterText_of_notMem member, List.nil_append]
    · rw [tokensBeforeText, if_neg member]

/-- A name that is bound after the directive is bound in the whole text, as
many words later as mnemonics stand ahead of the directive. -/
theorem SymbolTable.find?_ofTokens_everywhere (settings : Settings)
    {tokens : List Token} {name : String} {address : UInt32}
    (found : (ofTokens instructions
      { settings with labelScope := .afterText } tokens).find? name =
        some address) :
    (ofTokens instructions
        { settings with labelScope := .everywhere } tokens).find? name =
      some (wordAddress address
        (instructions.mnemonicCount (tokensBeforeText tokens))) := by
  obtain ⟨skipped, split, sameCount⟩ :=
    @exists_append_tokens_afterText instructions tokens
  rw [← sameCount]
  have whole : ofTokens instructions
      { settings with labelScope := .everywhere } tokens =
        (LabelBinding.walk instructions settings.baseAddress
          (skipped ++ LabelScope.afterText.tokens tokens)).symbols := by
    rw [← split]
    rfl
  -- The walk through the scope starts at a later address, and moves its labels.
  have moved : (LabelBinding.walk instructions
      (wordAddress settings.baseAddress (instructions.mnemonicCount skipped))
      (LabelScope.afterText.tokens tokens)).symbols.find? name =
        some (wordAddress address (instructions.mnemonicCount skipped)) := by
    rw [wordAddress, LabelBinding.walk_relocate]
    change ((ofTokens instructions
      { settings with labelScope := .afterText } tokens).relocate _).find? name = _
    rw [find?_relocate, found]
    rfl
  rw [whole, LabelBinding.find?_walk_append, moved]
  rfl

/-! ## Instructions with farther targets -/

/-- How an instruction of a program is related to the one in its place if all
targets lie a number of words farther. -/
inductive Instruction.Retargets (count : Nat) (isBranch : Prop) :
    Instruction → Instruction → Prop
  | register (opcode rs rt rd shamt funct : UInt32) :
      Retargets count isBranch (.register opcode rs rt rd shamt funct)
        (.register opcode rs rt rd shamt funct)
  | immediate (opcode rs rt : UInt32) (imm : Int32) (noBranch : ¬ isBranch) :
      Retargets count isBranch (.immediate opcode rs rt imm)
        (.immediate opcode rs rt imm)
  /-- The distance grows in the field that the word has for it. -/
  | branch (opcode rs rt : UInt32) (imm farther : Int32) (branches : isBranch)
      (fieldEq :
        WordField.imm.read (immediate opcode rs rt farther).word.toNat =
          (WordField.imm.read (immediate opcode rs rt imm).word.toNat +
            count) % 0x10000) :
      Retargets count isBranch (.immediate opcode rs rt imm)
        (.immediate opcode rs rt farther)
  | jump (opcode address : UInt32) :
      Retargets count isBranch (.jump opcode address)
        (.jump opcode (wordAddress address count))

/-- Targets that do not move leave the word alone. -/
theorem Instruction.Retargets.word_eq {isBranch : Prop}
    {instruction other : Instruction}
    (retargets : instruction.Retargets 0 isBranch other) :
    other.word = instruction.word := by
  cases retargets with
  | register => rfl
  | immediate => rfl
  | branch opcode rs rt imm farther branches fieldEq =>
      rw [WordField.read_imm_word, WordField.read_imm_word] at fieldEq
      rw [← UInt32.toNat_inj, toNat_word_immediate, toNat_word_immediate]
      have sameField : farther.toUInt32.toNat % 0x10000 =
          imm.toUInt32.toNat % 0x10000 := by
        omega
      rw [sameField]
  | jump opcode address => rw [wordAddress_zero]

theorem WordField.read_imm_branch (opcode rs rt base : UInt32)
    (index position : Nat) :
    (WordField.imm.read (Instruction.immediate opcode rs rt (Int32.ofInt
        (branchDistance (wordAddress base index)
          (wordAddress base position)))).word.toNat : Int) =
      ((position : Int) - index) % 0x10000 := by
  rw [read_imm_word, toNat_int32_ofInt_mod, branchDistance_wordAddress_mod]
  omega

theorem Phrase.retargets {phrase : Phrase} {wider : SymbolTable}
    {base : UInt32} {index count : Nat} {instruction other : Instruction}
    (bound : ∀ label address, symbols.find? label = some address →
      ∃ position, address = wordAddress base position)
    (farther : ∀ label address, symbols.find? label = some address →
      wider.find? label = some (wordAddress address count))
    (denotes : phrase.instruction? instructions symbols
      (wordAddress base index) = some instruction)
    (otherDenotes : phrase.instruction? instructions wider
      (wordAddress base index) = some other) :
    instruction.Retargets count phrase.operands.branchTarget?.isSome other := by
  cases branches : phrase.operands.branchTarget? with
  | some label =>
      obtain ⟨opcode, rs, rt, everywhere⟩ :=
        instruction?_of_branchTarget? denotes branches
      rw [everywhere, Option.map_eq_some_iff] at denotes
      obtain ⟨target, found, rfl⟩ := denotes
      obtain ⟨position, rfl⟩ := bound label target found
      rw [everywhere, farther label _ found,
        wordAddress_wordAddress] at otherDenotes
      obtain rfl := Option.some.inj otherDenotes
      refine .branch _ _ _ _ _ rfl ?_
      have near := WordField.read_imm_branch opcode rs rt base index position
      have far :=
        WordField.read_imm_branch opcode rs rt base index (position + count)
      omega
  | none =>
      cases jumps : phrase.operands.jumpTarget? with
      | some label =>
          obtain ⟨opcode, everywhere⟩ :=
            instruction?_of_jumpTarget? denotes jumps
          rw [everywhere, Option.map_eq_some_iff] at denotes
          obtain ⟨target, found, rfl⟩ := denotes
          rw [everywhere, farther label _ found] at otherDenotes
          obtain rfl := Option.some.inj otherDenotes
          exact .jump opcode target
      | none =>
          have same := instruction?_of_no_target denotes branches jumps
            wider (wordAddress base index)
          obtain rfl := Option.some.inj (same.symm.trans otherDenotes)
          cases instruction with
          | register => exact .register ..
          | immediate => exact .immediate _ _ _ _ (by simp)
          | jump opcode address =>
              obtain ⟨label, isJump⟩ := exists_jumpTarget?_of_jump denotes
              rw [jumps] at isJump
              cases isJump

/-- A program that is assembled with the labels after the first `.text`
directive is also assembled with the labels of the whole text.  Its labels,
and with them the targets of its branches and jumps, then lie as many words
farther as mnemonics stand ahead of the directive, so that without any the
words are the same. -/
theorem assemble_everywhere_of_afterText (settings : Settings)
    {source : String} {assembly : Assembly}
    (assembled : assemble { settings with labelScope := .afterText } source =
      .ok assembly) :
    ∃ (wider : Assembly) (tokens : List Token) (phrases : List Phrase),
      assemble { settings with labelScope := .everywhere } source =
        .ok wider ∧
      Token.ofSource Mips32.instructionSet source = .ok tokens ∧
      (entryBody? settings.entryLabel tokens).getD [] =
        phrases.flatMap Phrase.tokens ∧
      (∀ phrase ∈ phrases,
        phrase.IsValid Mips32.instructionSet assembly.symbols) ∧
      phrases.length = assembly.instructions.length ∧
      wider.instructions.length = assembly.instructions.length ∧
      let count :=
        Mips32.instructionSet.mnemonicCount (tokensBeforeText tokens)
      (∀ name address, assembly.symbols.find? name = some address →
        wider.symbols.find? name = some (wordAddress address count)) ∧
      (∀ (index : Nat) (_ : index < phrases.length)
          (_ : index < assembly.instructions.length)
          (_ : index < wider.instructions.length),
        assembly.instructions[index].Retargets count
          phrases[index].operands.branchTarget?.isSome
          wider.instructions[index]) ∧
      (count = 0 → wider.words = assembly.words) := by
  obtain ⟨tokens, phrases, tokenized, -, symbolsEq, bodyEq, denote⟩ :=
    assemble_eq_ok_iff_phrases.mp assembled
  have valid := Phrase.exists_instructions?_iff.mp ⟨_, denote⟩
  let symbols := SymbolTable.ofTokens Mips32.instructionSet
    { settings with labelScope := .everywhere } tokens
  let count := Mips32.instructionSet.mnemonicCount (tokensBeforeText tokens)
  have farther : ∀ name address,
      assembly.symbols.find? name = some address →
        symbols.find? name = some (wordAddress address count) := by
    intro name address found
    rw [symbolsEq] at found
    exact SymbolTable.find?_ofTokens_everywhere settings found
  have bound : ∀ label address,
      assembly.symbols.find? label = some address →
        ∃ position, address = wordAddress settings.baseAddress position := by
    intro label address found
    rw [symbolsEq] at found
    exact LabelBinding.exists_wordAddress_of_find?_walk found
  -- No label that the code refers to is lost in the larger scope.
  have validToo : ∀ phrase ∈ phrases,
      phrase.IsValid Mips32.instructionSet symbols := by
    intro phrase member
    obtain ⟨fits, registers, integers, labels⟩ := valid phrase member
    refine ⟨fits, registers, integers, fun name inPhrase => ?_⟩
    obtain ⟨address, found⟩ :=
      Option.isSome_iff_exists.mp (labels name inPhrase)
    rw [farther name address found]
    rfl
  obtain ⟨encoded, denoteToo⟩ :=
    Phrase.exists_instructions?_iff.mpr validToo
  have lengths := Phrase.length_eq_of_instructions? denote
  have lengthsToo := Phrase.length_eq_of_instructions? denoteToo
  have retargets : ∀ (index : Nat) (_ : index < phrases.length)
      (_ : index < assembly.instructions.length)
      (_ : index < encoded.length),
      assembly.instructions[index].Retargets count
        phrases[index].operands.branchTarget?.isSome encoded[index] := by
    intro index inPhrases inCode inEncoded
    exact Phrase.retargets bound farther
      (Phrase.instruction?_getElem denote inPhrases inCode)
      (Phrase.instruction?_getElem denoteToo inPhrases inEncoded)
  refine ⟨⟨settings.baseAddress, symbols, encoded⟩, tokens, phrases,
    assemble_eq_ok_iff_phrases.mpr
      ⟨tokens, phrases, tokenized, rfl, rfl, bodyEq, denoteToo⟩,
    tokenized, bodyEq, valid, lengths, lengthsToo.symm.trans lengths, farther,
    retargets, ?_⟩
  intro noMnemonic
  have unmoved : count = 0 := noMnemonic
  have sameWord : ∀ (index : Nat) (inEncoded : index < encoded.length)
      (inCode : index < assembly.instructions.length),
      encoded[index].word = assembly.instructions[index].word := by
    intro index inEncoded inCode
    have related := retargets index (lengths ▸ inCode) inCode inEncoded
    rw [unmoved] at related
    exact related.word_eq
  apply List.ext_getElem
  · simp [Assembly.words, lengthsToo.symm.trans lengths]
  · simpa [Assembly.words] using sameWord

/-! ### Code ahead of the directive -/

namespace CodeBeforeText

def source : String :=
  "add $t0, $t0, $t0\nend: .text\nmain: beq $t0, $t1, end\nj main\nend:"

def tokens : List Token :=
  CodeAhead.add.tokens ++ ⟨.label, "end"⟩ :: ⟨.directive, "text"⟩ ::
    Settings.entryToken {} :: CodeAhead.branch.tokens ++
    EntryRedefined.jump.tokens ++ [⟨.label, "end"⟩]

def assembly : Assembly where
  baseAddress := 0x00400000
  symbols := .ofList [("main", 0x00400000), ("end", 0x00400008)]
  instructions := [.immediate 4 8 9 2, .jump 2 0x00400000]

theorem tokenized : Token.ofSource Mips32.instructionSet source = .ok tokens := by
  decide +kernel

theorem assembled :
    assemble { labelScope := .afterText } source = .ok assembly := by
  decide +kernel

/-- The label `end` that counts is the last one in either scope.  With the
instruction ahead of the directive it lies one word farther. -/
theorem exists_wider :
    assemble { labelScope := .afterText } source = .ok assembly ∧
      ∃ wider, assemble {} source = .ok wider ∧
        wider.symbols.find? "end" = some 0x0040000C ∧
        wider.instructions[1]? = some (.jump 2 0x00400004) := by
  obtain ⟨wider, found, phrases, ran, tokenizedToo, -, -, lengths, lengthsToo,
    farther, retargets, -⟩ := assemble_everywhere_of_afterText {} assembled
  obtain rfl : found = tokens :=
    Except.ok.inj (tokenizedToo.symm.trans tokenized)
  have inCode : 1 < assembly.instructions.length := by decide
  have inWider : 1 < wider.instructions.length := lengthsToo ▸ inCode
  have bound : wider.symbols.find? "end" = some 0x0040000C :=
    (farther "end" 0x00400008 (by decide +kernel)).trans (by decide +kernel)
  refine ⟨assembled, wider, ran, bound, ?_⟩
  have related := retargets 1 (lengths ▸ inCode) inCode inWider
  have isJump : assembly.instructions[1] = .jump 2 0x00400000 := rfl
  rw [isJump] at related
  rw [List.getElem?_eq_getElem inWider]
  generalize wider.instructions[1] = other at related
  cases related with
  | jump => decide +kernel

end CodeBeforeText

end MipsAssembler
