import MipsAssembler.Proofs.Program.LockStep

/-!
# The drift between the two address counters

Along the code of the entry label, the walk that binds labels runs ahead of
the walk that encodes.  It starts ahead by the mnemonics in scope before the
entry label, and gains a word at every operand that is spelled like a
mnemonic; it never falls back.
-/

namespace MipsAssembler

variable {instructions : InstructionSet}

/-! ## Positions and operands in the code -/

namespace Phrase

variable {phrases : List Phrase} {index : Nat}

/-- The number of tokens of the phrases before the one at an index. -/
def position (phrases : List Phrase) (index : Nat) : Nat :=
  ((phrases.take index).flatMap tokens).length

/-- For every token of the phrases, whether it is an operand that is spelled
like a mnemonic. -/
def operandMarks (instructions : InstructionSet) (phrases : List Phrase) :
    List Bool :=
  phrases.flatMap fun phrase =>
    false :: phrase.operandTokens.map instructions.counts

/-- The number of operands spelled like mnemonics among the first tokens of
the phrases. -/
def operandMnemonicsBefore (instructions : InstructionSet)
    (phrases : List Phrase) (count : Nat) : Nat :=
  ((operandMarks instructions phrases).take count).count true

theorem operandMarks_append (first second : List Phrase) :
    operandMarks instructions (first ++ second) =
      operandMarks instructions first ++ operandMarks instructions second :=
  List.flatMap_append

theorem length_operandMarks (phrases : List Phrase) :
    (operandMarks instructions phrases).length =
      (phrases.flatMap tokens).length := by
  induction phrases with
  | nil => rfl
  | cons phrase phrases ih =>
      rw [operandMarks, List.flatMap_cons, List.flatMap_cons,
        List.length_append, List.length_append, ← operandMarks, ih]
      simp [tokens]

theorem count_operandMarks (phrases : List Phrase) :
    (operandMarks instructions phrases).count true =
      targetMnemonicCount instructions phrases := by
  induction phrases with
  | nil => rfl
  | cons phrase phrases ih =>
      have operands : (phrase.operandTokens.map instructions.counts).count true =
          phrase.operands.labels.countP instructions.isMnemonic := by
        rw [← phrase.spells.mnemonicCount, List.count, List.countP_map]
        exact List.countP_congr fun token _ => by simp
      rw [operandMarks, List.flatMap_cons, ← operandMarks, List.count_append,
        ih, List.count_cons_of_ne (by decide), operands]
      simp only [targetMnemonicCount, Statement.operandMnemonicCount,
        List.map_cons, List.flatMap_cons, List.countP_append]
      rfl

theorem flatMap_tokens_split (phrases : List Phrase) (index : Nat) :
    phrases.flatMap tokens =
      (phrases.take index).flatMap tokens ++
        (phrases.drop index).flatMap tokens := by
  rw [← List.flatMap_append, List.take_append_drop]

theorem take_position (phrases : List Phrase) (index : Nat) :
    (phrases.flatMap tokens).take (position phrases index) =
      (phrases.take index).flatMap tokens := by
  rw [flatMap_tokens_split phrases index]
  exact List.take_left

theorem operandMnemonicsBefore_position (phrases : List Phrase)
    (index : Nat) :
    operandMnemonicsBefore instructions phrases (position phrases index) =
      targetMnemonicCount instructions (phrases.take index) := by
  have split : operandMarks instructions phrases =
      operandMarks instructions (phrases.take index) ++
        operandMarks instructions (phrases.drop index) := by
    rw [← operandMarks_append, List.take_append_drop]
  -- There is a mark for every token, so the position also splits the marks.
  rw [operandMnemonicsBefore, split, position, ← length_operandMarks,
    List.take_left, count_operandMarks]

theorem position_length (phrases : List Phrase) :
    position phrases phrases.length = (phrases.flatMap tokens).length := by
  rw [position, List.take_length]

/-- A phrase begins at its position. -/
theorem getElem?_position (inside : index < phrases.length) :
    (phrases.flatMap tokens)[position phrases index]? =
      some ⟨.identifier, phrases[index].mnemonic⟩ := by
  rw [flatMap_tokens_split phrases index, position,
    List.getElem?_append_right (Nat.le_refl _), Nat.sub_self,
    List.drop_eq_getElem_cons inside]
  rfl

theorem operandMnemonicsBefore_mono (phrases : List Phrase)
    {first second : Nat} (le : first ≤ second) :
    operandMnemonicsBefore instructions phrases first ≤
      operandMnemonicsBefore instructions phrases second :=
  (List.take_prefix_take_left le).sublist.count_le true

end Phrase

/-! ## The walk that binds labels -/

namespace EntryInScope

variable {settings : Settings} {tokens : List Token} {phrases : List Phrase}

/-- The address of the walk that binds labels, after the entry label and some
of the tokens that are encoded. -/
def bindingAddress (instructions : InstructionSet)
    (entry : EntryInScope settings tokens) (count : Nat) : UInt32 :=
  (LabelBinding.walk instructions settings.baseAddress
    (entry.before ++ settings.entryToken :: entry.body.take count)).address

/-- The number of words by which the walk is ahead there. -/
def drift (instructions : InstructionSet)
    (entry : EntryInScope settings tokens) (phrases : List Phrase)
    (count : Nat) : Nat :=
  instructions.mnemonicCount entry.before +
    Phrase.operandMnemonicsBefore instructions phrases count

theorem bindingAddress_position {entry : EntryInScope settings tokens}
    (bodyEq : entry.body = phrases.flatMap Phrase.tokens)
    (fits : ∀ phrase ∈ phrases, phrase.FitsTable instructions)
    {index : Nat} (inside : index ≤ phrases.length) :
    entry.bindingAddress instructions (Phrase.position phrases index) =
      wordAddress settings.baseAddress (index +
        entry.drift instructions phrases (Phrase.position phrases index)) := by
  rw [bindingAddress, bodyEq, Phrase.take_position,
    LabelBinding.address_walk_entry fun phrase member =>
      fits phrase (List.mem_of_mem_take member),
    List.length_take_of_le inside, drift,
    Phrase.operandMnemonicsBefore_position]

/-- The label that ends the code is bound where the walk arrives there. -/
theorem find?_label_after_body {entry : EntryInScope settings tokens}
    {name : String} {after : List Token}
    (split : entry.rest = entry.body ++ ⟨.label, name⟩ :: after)
    (last : ∀ later ∈ after, ¬ later.Defines name) :
    (SymbolTable.ofTokens instructions settings tokens).find? name =
      some (entry.bindingAddress instructions entry.body.length) := by
  have scopeEq : settings.labelScope.tokens tokens =
      (entry.before ++ settings.entryToken :: entry.body) ++
        ⟨.label, name⟩ :: after := by
    rw [entry.scopeEq, split, List.append_assoc, List.cons_append]
  rw [SymbolTable.ofTokens, scopeEq, bindingAddress, List.take_length,
    LabelBinding.address_walk]
  exact LabelBinding.find?_walk_of_defines ⟨rfl, rfl⟩ last

end EntryInScope

/-- At each encoded instruction and at the end of the code, the walk that
binds labels is ahead by the mnemonics in scope before the entry label and by
the operands spelled like mnemonics up to there.  The label that ends the code
is bound with this drift.  The two walks have the same address at every
instruction exactly when each drift makes up whole rounds of the address
space, so in particular when there are neither such mnemonics nor such
operands. -/
theorem assemble_address_drift {settings : Settings} {source : String}
    {tokens : List Token} {assembly : Assembly}
    (assembled : assemble settings source = .ok assembly)
    (tokenized : Token.ofSource Mips32.instructionSet source = .ok tokens)
    (entry : EntryInScope settings tokens) :
    ∃ phrases : List Phrase,
      entry.body = phrases.flatMap Phrase.tokens ∧
      (∀ phrase ∈ phrases,
        phrase.IsValid Mips32.instructionSet assembly.symbols) ∧
      phrases.length = assembly.instructions.length ∧
      let position := Phrase.position phrases
      let drift := entry.drift Mips32.instructionSet phrases
      let bindingAddress := entry.bindingAddress Mips32.instructionSet
      let encodingAddress := wordAddress settings.baseAddress
      (∀ (index : Nat) (inside : index < phrases.length),
        entry.body[position index]? =
          some ⟨.identifier, phrases[index].mnemonic⟩) ∧
      position phrases.length = entry.body.length ∧
      (∀ index ≤ phrases.length,
        bindingAddress (position index) = wordAddress settings.baseAddress
            (index + drift (position index)) ∧
          Encoding.run Mips32.instructionSet assembly.symbols
              (.start settings.baseAddress)
              (entry.body.take (position index)) =
            .ok ⟨encodingAddress index,
              (assembly.instructions.take index).reverse, none⟩) ∧
      (∀ name after, entry.rest = entry.body ++ ⟨.label, name⟩ :: after →
        (∀ later ∈ after, ¬ later.Defines name) →
        assembly.symbols.find? name = some (wordAddress settings.baseAddress
          (phrases.length + drift entry.body.length))) ∧
      ((∀ index < phrases.length,
          encodingAddress index = bindingAddress (position index)) ↔
        ∀ index < phrases.length, drift (position index) % 0x40000000 = 0) ∧
      (Mips32.instructionSet.mnemonicCount entry.before = 0 →
        Phrase.operandMnemonicsBefore Mips32.instructionSet phrases
          entry.body.length = 0 →
        ∀ index < phrases.length,
          encodingAddress index = bindingAddress (position index)) := by
  obtain ⟨tokens, tokenizedToo, -, symbolsEq, ran⟩ :=
    assemble_eq_ok_iff.mp assembled
  obtain rfl : tokens = _ := Except.ok.inj (tokenizedToo.symm.trans tokenized)
  rw [entry.entryBody?_eq, Option.getD_some] at ran
  obtain ⟨phrases, bodyEq, denote⟩ := Instruction.ofTokens_eq_ok_iff.mp ran
  have valid := Phrase.exists_instructions?_iff.mp ⟨_, denote⟩
  have fits : ∀ phrase ∈ phrases, phrase.FitsTable Mips32.instructionSet :=
    fun phrase member => (valid phrase member).fits
  refine ⟨phrases, bodyEq, valid, Phrase.length_eq_of_instructions? denote, ?_⟩
  intro position drift bindingAddress encodingAddress
  have atEnd : position phrases.length = entry.body.length := by
    rw [bodyEq]
    exact Phrase.position_length phrases
  have ahead : ∀ index ≤ phrases.length, bindingAddress (position index) =
      wordAddress settings.baseAddress (index + drift (position index)) :=
    fun index inside => EntryInScope.bindingAddress_position bodyEq fits inside
  have agree : ∀ index ≤ phrases.length,
      (encodingAddress index = bindingAddress (position index) ↔
        drift (position index) % 0x40000000 = 0) := by
    intro index inside
    rw [ahead index inside, wordAddress_eq_iff]
    omega
  refine ⟨fun index inside => ?_, atEnd, fun index inside =>
    ⟨ahead index inside, ?_⟩, fun name after split last => ?_, ?_, ?_⟩
  · rw [bodyEq]
    exact Phrase.getElem?_position inside
  · rw [bodyEq, Phrase.take_position, Phrase.run_take denote,
      List.length_take_of_le inside]
  · rw [symbolsEq, EntryInScope.find?_label_after_body split last, ← atEnd]
    exact congrArg some (ahead _ (Nat.le_refl _))
  · exact forall₂_congr fun index inside => agree index (Nat.le_of_lt inside)
  · -- Marks are only added along the code, so none at its end is none at all.
    intro noneBefore noneInside index inside
    have bound := @Phrase.operandMnemonicsBefore_mono Mips32.instructionSet
      phrases (position index) entry.body.length ?_
    · refine (agree index (Nat.le_of_lt inside)).mpr ?_
      simp only [drift, EntryInScope.drift]
      omega
    · have present := Phrase.getElem?_position inside
      rw [← bodyEq] at present
      obtain ⟨within, -⟩ := List.getElem?_eq_some_iff.mp present
      exact Nat.le_of_lt within

/-! ### A jump to a label that is spelled like a mnemonic -/

namespace MnemonicTarget

def source : String :=
  "add $t0, $t0, $t0\nmain: j add\nj main\nadd:"

def phrases : List Phrase :=
  [⟨"j", .jump "add", _, .jump "add"⟩, ⟨"j", .jump "main", _, .jump "main"⟩]

def rest : List Token :=
  phrases.flatMap Phrase.tokens ++ [⟨.label, "add"⟩]

def tokens : List Token :=
  CodeAhead.add.tokens ++ Settings.entryToken {} :: rest

def entry : EntryInScope {} tokens where
  skipped := []
  before := CodeAhead.add.tokens
  rest := rest
  tokensEq := rfl
  scopeEq := rfl
  first := CodeAhead.entry.first

def assembly : Assembly where
  baseAddress := 0x00400000
  symbols := .ofList [("main", 0x00400004), ("add", 0x00400010)]
  instructions := [.jump 2 0x00400010, .jump 2 0x00400004]

theorem tokenized : Token.ofSource Mips32.instructionSet source = .ok tokens := by
  decide +kernel

theorem assembled : assemble {} source = .ok assembly := by
  decide +kernel

theorem phrases_fitsTable :
    ∀ phrase ∈ phrases, phrase.FitsTable Mips32.instructionSet := by
  decide +kernel

/-- At the second jump the walks are two words apart: one for the instruction
ahead of the entry label, and one for the operand of the first jump. -/
theorem addresses_drift :
    wordAddress 0x00400000 1 = 0x00400004 ∧
      entry.bindingAddress Mips32.instructionSet 2 = 0x0040000C ∧
      assembly.symbols.find? "add" = some 0x00400010 := by
  obtain ⟨found, bodyEq, valid, -, -, -, ahead, ended, -⟩ :=
    assemble_address_drift assembled tokenized entry
  obtain rfl : found = phrases := Phrase.eq_of_flatMap_tokens
    (fun phrase member => (valid phrase member).fits) phrases_fitsTable
    (bodyEq.symm.trans (by decide +kernel))
  refine ⟨by decide, (ahead 1 (by decide)).1.trans (by decide +kernel), ?_⟩
  exact (ended "add" [] (by decide +kernel) nofun).trans (by decide +kernel)

end MnemonicTarget

end MipsAssembler
