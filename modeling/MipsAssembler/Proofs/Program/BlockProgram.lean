import MipsAssembler.Proofs.Program.Assembly
import MipsAssembler.Proofs.Program.Operation
import MipsAssembler.Proofs.Program.Statement
import MipsAssembler.Proofs.Program.SymbolTable
import MipsAssembler.Proofs.Source.CanonicalLayout

/-!
# Programs of labelled blocks

A program is a list of blocks, each a label and the operations under it.
Assembling any text of a program binds its labels to their places and gives
the reference words of the first block.
-/

namespace MipsAssembler

/-! ## Programs -/

/-- A label and the operations under it. -/
structure Block where
  label : String
  body : List Operation

/-- Blocks with different labels, none of which is a mnemonic.  The operands
of the operations refer to labels of the program. -/
structure BlockProgram where
  entry : Block
  later : List Block
  isLowerWord : ∀ block ∈ entry :: later, Text.isLowerWord block.label = true
  notMnemonic : ∀ block ∈ entry :: later,
    ∀ row ∈ Mips32.descriptors, row.mnemonic ≠ block.label
  distinct : ((entry :: later).map Block.label).Nodup
  closed : ∀ block ∈ entry :: later, ∀ operation ∈ block.body,
    ∀ label ∈ operation.operands.labels,
      label ∈ (entry :: later).map Block.label

def Block.statements (block : Block) : List Statement :=
  .label block.label ::
    block.body.map fun operation => .instruction operation.phrase

namespace BlockProgram

def blocks (program : BlockProgram) : List Block :=
  program.entry :: program.later

def labels (program : BlockProgram) : List String :=
  program.blocks.map Block.label

/-- The number of operations ahead of the block of a label. -/
def position (program : BlockProgram) (label : String) : Nat :=
  ((program.blocks.takeWhile (·.label ≠ label)).flatMap Block.body).length

def statements (program : BlockProgram) : List Statement :=
  program.blocks.flatMap Block.statements

def tokens (program : BlockProgram) : List Token :=
  program.statements.flatMap Statement.tokens

end BlockProgram

/-! ## Statements of a program -/

namespace Block

theorem isInstruction_of_mem_body {block : Block} {statement : Statement}
    (member : statement ∈ block.body.map
      fun operation => Statement.instruction operation.phrase) :
    statement.isInstruction = true := by
  obtain ⟨operation, -, rfl⟩ := List.mem_map.mp member
  rfl

theorem instructionCount_statements (block : Block) :
    Statement.instructionCount block.statements = block.body.length := by
  have counted :=
    Statement.instructionCount_map_instruction Operation.phrase block.body
  rw [Statement.instructionCount] at counted ⊢
  rw [statements, List.countP_cons, counted]
  rfl

theorem instructionCount_flatMap_statements (blocks : List Block) :
    Statement.instructionCount (blocks.flatMap statements) =
      (blocks.flatMap body).length := by
  induction blocks with
  | nil => rfl
  | cons block blocks ih =>
      rw [List.flatMap_cons, Statement.instructionCount_append,
        instructionCount_statements, ih, List.flatMap_cons,
        List.length_append]

theorem label_mem_statements {block : Block} {name : String} :
    .label name ∈ block.statements ↔ name = block.label := by
  simp [statements]

end Block

namespace BlockProgram

variable {program : BlockProgram}

/-- The statements of a program are its labels and its operations. -/
theorem block_of_mem_statements {statement : Statement}
    (member : statement ∈ program.statements) :
    ∃ block ∈ program.blocks, statement = .label block.label ∨
      ∃ operation ∈ block.body, statement = .instruction operation.phrase := by
  obtain ⟨block, inBlocks, inBlock⟩ := List.mem_flatMap.mp member
  refine ⟨block, inBlocks, (List.mem_cons.mp inBlock).imp_right fun inBody => ?_⟩
  obtain ⟨operation, present, rfl⟩ := List.mem_map.mp inBody
  exact ⟨operation, present, rfl⟩

theorem fitsTable_of_mem_statements {statement : Statement}
    (member : statement ∈ program.statements) :
    statement.FitsTable Mips32.instructionSet := by
  obtain ⟨block, -, rfl | ⟨operation, -, rfl⟩⟩ := block_of_mem_statements member
  · trivial
  · exact operation.phrase_fitsTable

theorem isMnemonic_label {label : String} (member : label ∈ program.labels) :
    Mips32.instructionSet.isMnemonic label = false := by
  obtain ⟨block, inBlocks, rfl⟩ := List.mem_map.mp member
  rw [InstructionSet.isMnemonic, Option.isSome_eq_false_iff,
    Option.isNone_iff_eq_none]
  exact List.find?_eq_none.mpr fun row inTable => by
    simp [program.notMnemonic block inBlocks row inTable]

theorem foldCase_label {label : String} (member : label ∈ program.labels) :
    Text.foldCase label = label := by
  obtain ⟨block, inBlocks, rfl⟩ := List.mem_map.mp member
  exact Text.foldCase_of_isLowerName
    (Bool.and_eq_true_iff.mp (program.isLowerWord block inBlocks)).1

/-- No operand of a program is spelled like a mnemonic. -/
theorem operandMnemonicCount_eq_zero {statements : List Statement}
    (inside : ∀ statement ∈ statements, statement ∈ program.statements) :
    Statement.operandMnemonicCount Mips32.instructionSet statements = 0 := by
  rw [Statement.operandMnemonicCount, List.countP_eq_zero]
  intro name member
  obtain ⟨statement, inStatements, member⟩ := List.mem_flatMap.mp member
  obtain ⟨block, inBlocks, rfl | ⟨operation, present, rfl⟩⟩ :=
    block_of_mem_statements (inside statement inStatements)
  · cases member
  · have inLabels := program.closed block inBlocks operation present name
      (operation.labels_phrase ▸ member)
    simp [isMnemonic_label inLabels]

/-! ## Addresses of labels -/

theorem label_ne_of_split {before after : List Block} {block other : Block}
    (split : program.blocks = before ++ block :: after)
    (member : other ∈ before ++ after) : other.label ≠ block.label := by
  have distinct : (program.blocks.map Block.label).Nodup := program.distinct
  rw [split, (List.perm_middle.map Block.label).nodup_iff, List.map_cons,
    List.nodup_cons] at distinct
  intro same
  exact distinct.1 (same ▸ List.mem_map_of_mem member)

theorem position_label {before after : List Block} {block : Block}
    (split : program.blocks = before ++ block :: after) :
    program.position block.label = (before.flatMap Block.body).length := by
  have different : ∀ other ∈ before,
      decide (other.label ≠ block.label) = true :=
    fun other member => decide_eq_true
      (label_ne_of_split split (List.mem_append_left after member))
  rw [position, split, List.takeWhile_append_of_pos different]
  simp

theorem mem_statements_of_split {before after : List Block}
    (split : program.blocks = before ++ after) {statement : Statement}
    (member : statement ∈ before.flatMap Block.statements) :
    statement ∈ program.statements := by
  rw [statements, split, List.flatMap_append]
  exact List.mem_append_left _ member

/-- The walk over a program binds each label to its position. -/
theorem find?_walk_label (base : UInt32) {label : String}
    (member : label ∈ program.labels) :
    (LabelBinding.walk Mips32.instructionSet base
        program.tokens).symbols.find? label =
      some (wordAddress base (program.position label)) := by
  obtain ⟨block, inBlocks, rfl⟩ := List.mem_map.mp member
  obtain ⟨before, after, split⟩ := List.append_of_mem inBlocks
  have inProgram : ∀ statement ∈ before.flatMap Block.statements,
      statement ∈ program.statements :=
    fun _ => mem_statements_of_split split
  have last : ∀ later,
      .label later ∈ (block.body.map fun operation =>
        Statement.instruction operation.phrase) ++
          after.flatMap Block.statements →
      Text.foldCase later ≠ Text.foldCase block.label := by
    intro later laterMember
    rcases List.mem_append.mp laterMember with inBody | inAfter
    · cases Block.isInstruction_of_mem_body inBody
    · obtain ⟨other, otherAfter, inOther⟩ := List.mem_flatMap.mp inAfter
      obtain rfl := Block.label_mem_statements.mp inOther
      have otherMember : other.label ∈ program.labels := by
        rw [labels, split]
        exact List.mem_map_of_mem
          (List.mem_append_right _ (List.mem_cons_of_mem _ otherAfter))
      rw [foldCase_label otherMember, foldCase_label member]
      exact label_ne_of_split split (List.mem_append_right before otherAfter)
  have bound := @Statement.find?_walk_flatMap_tokens Mips32.instructionSet base
    _ _ block.label (fun statement inBefore =>
      fitsTable_of_mem_statements (inProgram statement inBefore)) last
  rw [operandMnemonicCount_eq_zero inProgram, Nat.add_zero,
    Block.instructionCount_flatMap_statements, ← position_label split] at bound
  rw [tokens, statements, split, List.flatMap_append, List.flatMap_cons]
  exact bound

/-- The walk over a program binds nothing but its labels. -/
theorem mem_labels_of_find?_walk {base : UInt32} {name : String}
    {address : UInt32} (folded : Text.foldCase name = name)
    (found : (LabelBinding.walk Mips32.instructionSet base
      program.tokens).symbols.find? name = some address) :
    name ∈ program.labels := by
  apply Decidable.byContradiction
  intro absent
  have undefined : ∀ token ∈ program.tokens, ¬ token.Defines name := by
    intro token member defines
    obtain ⟨statement, inProgram, inStatement⟩ := List.mem_flatMap.mp member
    obtain ⟨label, rfl, same⟩ :=
      Statement.eq_label_of_defines inStatement defines
    obtain ⟨block, inBlocks, labelEq | ⟨operation, -, ⟨⟩⟩⟩ :=
      block_of_mem_statements inProgram
    obtain rfl := Statement.label.inj labelEq
    have inLabels : block.label ∈ program.labels :=
      List.mem_map_of_mem inBlocks
    rw [foldCase_label inLabels, folded] at same
    exact absent (same ▸ inLabels)
  rw [LabelBinding.find?_walk_of_not_defines undefined] at found
  cases found

theorem mem_entries_walk_iff {base : UInt32} {name : String}
    {address : UInt32} :
    (name, address) ∈ (LabelBinding.walk Mips32.instructionSet base
        program.tokens).symbols.entries ↔
      name ∈ program.labels ∧
        address = wordAddress base (program.position name) := by
  rw [SymbolTable.mem_entries_iff]
  constructor
  · rintro ⟨folded, found⟩
    have member := mem_labels_of_find?_walk folded found
    rw [find?_walk_label base member, Option.some.injEq] at found
    exact ⟨member, found.symm⟩
  · rintro ⟨member, rfl⟩
    exact ⟨foldCase_label member, find?_walk_label base member⟩

/-! ## Layouts of a program -/

theorem isCanonical_of_mem_tokens {token : Token}
    (member : token ∈ program.tokens) :
    token.IsCanonical Mips32.instructionSet := by
  obtain ⟨statement, inProgram, inStatement⟩ := List.mem_flatMap.mp member
  obtain ⟨block, inBlocks, rfl | ⟨operation, present, rfl⟩⟩ :=
    block_of_mem_statements inProgram
  · obtain rfl := List.mem_singleton.mp inStatement
    exact Token.isCanonical_label (program.isLowerWord block inBlocks)
  · refine operation.isCanonical_of_mem_tokens ?_ token inStatement
    intro name used
    obtain ⟨target, targetMember, rfl⟩ := List.mem_map.mp
      (program.closed block inBlocks operation present name used)
    exact program.isLowerWord target targetMember

/-- The text of a program with a blank after each lexeme. -/
def text (program : BlockProgram) : String :=
  String.ofList (Token.separated program.tokens)

theorem layout_text (program : BlockProgram) :
    Source.Layout Mips32.instructionSet program.tokens
      program.text.toList := by
  rw [text, String.toList_ofList]
  exact Token.layout_separated fun _ => isCanonical_of_mem_tokens

/-! ## The first block -/

theorem kind_ne_directive {token : Token} (member : token ∈ program.tokens) :
    token.kind ≠ .directive := by
  obtain ⟨statement, inProgram, inStatement⟩ := List.mem_flatMap.mp member
  obtain ⟨block, -, rfl | ⟨operation, -, rfl⟩⟩ :=
    block_of_mem_statements inProgram
  · obtain rfl := List.mem_singleton.mp inStatement
    nofun
  · exact (Phrase.kind_ne_of_mem_tokens inStatement).2

/-- Labels are bound in the whole of a program. -/
theorem tokens_labelScope (scope : LabelScope) :
    scope.tokens program.tokens = program.tokens := by
  cases scope with
  | everywhere => rfl
  | afterText =>
      have noText : ∀ token ∈ program.tokens,
          decide (token ≠ ⟨.directive, "text"⟩) = true := by
        intro token member
        refine decide_eq_true fun equal => kind_ne_directive member ?_
        rw [equal]
      have dropped : program.tokens.dropWhile (· ≠ ⟨.directive, "text"⟩) =
          [] := by
        rw [← List.append_nil program.tokens,
          List.dropWhile_append_of_pos noText, List.dropWhile_nil]
      rw [LabelScope.tokens, dropped]

/-- The phrases of the first block. -/
def entryPhrases (program : BlockProgram) : List Phrase :=
  program.entry.body.map Operation.phrase

theorem entryBody?_tokens (settings : Settings)
    (entryLabel : settings.entryLabel = program.entry.label) :
    entryBody? settings.entryLabel program.tokens =
      some (program.entryPhrases.flatMap Phrase.tokens) := by
  have entryMember : program.entry.label ∈ program.labels :=
    List.mem_cons_self
  have entryToken : settings.entryToken = ⟨.label, program.entry.label⟩ := by
    rw [Settings.entryToken, entryLabel, foldCase_label entryMember]
  have split : program.tokens = [] ++ settings.entryToken ::
      (program.entryPhrases.flatMap Phrase.tokens ++
        (program.later.flatMap Block.statements).flatMap Statement.tokens) := by
    rw [entryToken, entryPhrases, List.flatMap_map]
    simp only [tokens, statements, blocks, List.flatMap_cons,
      Block.statements, List.flatMap_append, List.flatMap_map,
      Statement.tokens, List.nil_append, List.cons_append]
  have stops : ((program.later.flatMap Block.statements).flatMap
      Statement.tokens).takeWhile (·.kind ≠ .label) = [] := by
    cases program.later <;> rfl
  rw [split, entryBody?_append (by simp),
    List.takeWhile_append_of_pos Phrase.kind_ne_label_of_mem_flatMap, stops,
    List.append_nil]

/-- The first block denotes instructions with its reference words. -/
theorem exists_instructions?_entryPhrases {symbols : SymbolTable}
    {base : UInt32}
    (bound : ∀ label ∈ program.labels, symbols.find? label =
      some (wordAddress base (program.position label))) :
    ∃ encoded : List Instruction,
      Phrase.instructions? Mips32.instructionSet symbols base
          program.entryPhrases = encoded.map some ∧
        encoded.map (fun instruction => some instruction.word.toNat) =
          program.entry.body.mapIdx fun index operation =>
            operation.referenceWord? base program.position index := by
  have denotes : ∀ operation ∈ program.entry.body, ∀ index, ∃ instruction,
      operation.phrase.instruction? Mips32.instructionSet symbols
          (wordAddress base index) = some instruction ∧
        operation.referenceWord? base program.position index =
          some instruction.word.toNat := by
    intro operation member index
    apply Operation.exists_instruction?_referenceWord?
    intro label used
    exact bound label
      (program.closed _ List.mem_cons_self operation member label used)
  have valid : ∀ phrase ∈ program.entryPhrases,
      phrase.IsValid Mips32.instructionSet symbols := by
    intro phrase member
    obtain ⟨operation, inBody, rfl⟩ := List.mem_map.mp member
    obtain ⟨instruction, found, -⟩ := denotes operation inBody 0
    exact Phrase.isSome_instruction?_iff.mp
      (Option.isSome_iff_exists.mpr ⟨instruction, found⟩)
  obtain ⟨encoded, denote⟩ := Phrase.exists_instructions?_iff.mpr valid
  refine ⟨encoded, denote, ?_⟩
  have lengths := Phrase.length_eq_of_instructions? denote
  apply List.ext_getElem
  · simpa [entryPhrases] using lengths.symm
  intro index inEncoded inBody
  simp only [List.length_map, List.length_mapIdx] at inEncoded inBody
  obtain ⟨instruction, found, wordEq⟩ :=
    denotes _ (List.getElem_mem inBody) index
  have encodedThere := Phrase.instruction?_getElem denote
    (lengths.symm ▸ inEncoded) inEncoded
  simp only [entryPhrases, List.getElem_map] at encodedThere
  have same := Option.some.inj (encodedThere.symm.trans found)
  rw [List.getElem_map, List.getElem_mapIdx, wordEq, same]

end BlockProgram

/-- Assembling any text of a program succeeds.  It binds the labels of the
program and nothing else, each to the address of the operation after it, and
gives the reference words of the first block. -/
theorem assemble_blockProgram (program : BlockProgram) (base : UInt32)
    (scope : LabelScope) (source : String)
    (layout : Source.Layout Mips32.instructionSet program.tokens
      source.toList) :
    ∃ assembly,
      assemble ⟨base, program.entry.label, scope⟩ source = .ok assembly ∧
      assembly.baseAddress = base ∧
      (∀ name address, (name, address) ∈ assembly.symbols.entries ↔
        name ∈ program.labels ∧ address.toNat =
          (base.toNat + 4 * program.position name) % 0x100000000) ∧
      assembly.instructions.map
          (fun instruction => some instruction.word.toNat) =
        program.entry.body.mapIdx fun index operation =>
          operation.referenceWord? base program.position index := by
  have symbolsEq : SymbolTable.ofTokens Mips32.instructionSet
      ⟨base, program.entry.label, scope⟩ program.tokens =
        (LabelBinding.walk Mips32.instructionSet base program.tokens).symbols := by
    rw [SymbolTable.ofTokens, program.tokens_labelScope]
  obtain ⟨encoded, denote, words⟩ :=
    program.exists_instructions?_entryPhrases
      fun label => program.find?_walk_label base
  refine ⟨⟨base, _, encoded⟩, assemble_eq_ok_iff.mpr
    ⟨program.tokens, Token.ofSource_of_layout layout, rfl, symbolsEq.symm, ?_⟩,
    rfl, fun name address => ?_, words⟩
  · rw [program.entryBody?_tokens _ rfl]
    exact Instruction.ofTokens_eq_ok_iff.mpr ⟨_, rfl, denote⟩
  · rw [program.mem_entries_walk_iff, ← toNat_wordAddress, UInt32.toNat_inj]

/-! ### A program of two blocks -/

def negativeOne : Operation where
  row := ⟨"addi", .immediate 0x08⟩
  operands := .immediate "t0" "zero" (-1)
  known := by decide
  takes := .immediate 0x08 "t0" "zero" (-1)
  registers := by decide
  integers := by decide

def branchToDone : Operation where
  row := ⟨"beq", .branch 0x04 .betweenRegisters⟩
  operands := .branchOnPair "t0" "zero" "done"
  known := by decide
  takes := .branchOnPair 0x04 "t0" "zero" "done"
  registers := by decide
  integers := by decide

def jumpToMain : Operation where
  row := ⟨"j", .jump 0x02⟩
  operands := .jump "main"
  known := by decide
  takes := .jump 0x02 "main"
  registers := by decide
  integers := by decide

def twoBlocks : BlockProgram where
  entry := ⟨"main", [negativeOne, branchToDone, jumpToMain]⟩
  later := [⟨"done", [jumpToMain]⟩]
  isLowerWord := by decide +kernel
  notMnemonic := by decide +kernel
  distinct := by decide
  closed := by decide

theorem assemble_twoBlocks :
    ∃ assembly,
      assemble ⟨0x00400000, "main", .afterText⟩ twoBlocks.text =
        .ok assembly ∧
      ("done", 0x0040000C) ∈ assembly.symbols.entries ∧
      assembly.instructions.map
          (fun instruction => some instruction.word.toNat) =
        [some 0x2008FFFF, some 0x11000002, some 0x08400000] := by
  obtain ⟨assembly, assembled, -, bound, words⟩ :=
    assemble_blockProgram twoBlocks 0x00400000 .afterText twoBlocks.text
      twoBlocks.layout_text
  refine ⟨assembly, assembled, (bound _ _).mpr ⟨by decide, by decide⟩, ?_⟩
  exact words.trans (by decide)

end MipsAssembler
