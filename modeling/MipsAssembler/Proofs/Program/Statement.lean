import MipsAssembler.Machine.Mips32
import MipsAssembler.Proofs.Program.LabelAddresses
import MipsAssembler.Proofs.Program.Phrase

/-!
# Label addresses in lists of statements

A program is a list of labels, directives and instructions.  The walk that
binds labels does not know statements: it also counts an operand that is
spelled like a mnemonic.  This file says by how much the address of a label
differs from its distance in instructions.
-/

namespace MipsAssembler

/-! ## Statements -/

/-- Operands with a comma between neighbours. -/
inductive CommaSeparated : List Token → List Token → Prop
  | nil : CommaSeparated [] []
  | single (operand : Token) : CommaSeparated [operand] [operand]
  | cons (operand : Token) (comma : String) {next : Token}
      {operands tokens : List Token}
      (rest : CommaSeparated (next :: operands) tokens) :
      CommaSeparated (operand :: next :: operands)
        (operand :: ⟨.comma, comma⟩ :: tokens)

/-- A directive with identifiers and numbers as operands. -/
structure Directive where
  name : String
  operands : List Token
  operandTokens : List Token
  separated : CommaSeparated operands operandTokens
  kinds : ∀ operand ∈ operands,
    operand.kind = .identifier ∨ operand.kind = .number

inductive Statement
  | label (name : String)
  | directive (line : Directive)
  | instruction (phrase : Phrase)

namespace Statement

def tokens : Statement → List Token
  | label name => [⟨.label, name⟩]
  | directive line => ⟨.directive, line.name⟩ :: line.operandTokens
  | instruction phrase => phrase.tokens

/-- An instruction statement is a phrase of the instruction set, with any
identifiers in the place of labels. -/
def FitsTable (instructions : InstructionSet) : Statement → Prop
  | instruction phrase => phrase.FitsTable instructions
  | label _ | directive _ => True

def isInstruction : Statement → Bool
  | instruction _ => true
  | label _ | directive _ => false

/-- The identifiers in operand position. -/
def operandNames : Statement → List String
  | label _ => []
  | directive line =>
      (line.operands.filter (·.kind = .identifier)).map Token.text
  | instruction phrase => phrase.operands.labels

/-- The number of instructions among statements. -/
def instructionCount (statements : List Statement) : Nat :=
  statements.countP isInstruction

/-- The number of operands among statements that are spelled like mnemonics. -/
def operandMnemonicCount (instructions : InstructionSet)
    (statements : List Statement) : Nat :=
  (statements.flatMap operandNames).countP instructions.isMnemonic

end Statement

/-! ## Counting mnemonics -/

variable {instructions : InstructionSet}

namespace InstructionSet

theorem mnemonicCount_cons (token : Token) (tokens : List Token) :
    instructions.mnemonicCount (token :: tokens) =
      (if instructions.counts token then 1 else 0) +
        instructions.mnemonicCount tokens := by
  rw [mnemonicCount, List.countP_cons, Nat.add_comm]
  rfl

theorem mnemonicCount_append (first second : List Token) :
    instructions.mnemonicCount (first ++ second) =
      instructions.mnemonicCount first + instructions.mnemonicCount second :=
  List.countP_append

end InstructionSet

theorem OperandList.Spells.mnemonicCount
    {operands : OperandList String String String} {tokens : List Token}
    (spells : operands.Spells tokens) :
    instructions.mnemonicCount tokens =
      operands.labels.countP instructions.isMnemonic := by
  cases spells <;>
    simp [InstructionSet.mnemonicCount, InstructionSet.counts, labels,
      List.countP_cons]

/-- In a phrase the walk counts the mnemonic, and any operand spelled like
one. -/
theorem Phrase.mnemonicCount_tokens {phrase : Phrase}
    (fits : phrase.FitsTable instructions) :
    instructions.mnemonicCount phrase.tokens =
      1 + phrase.operands.labels.countP instructions.isMnemonic := by
  obtain ⟨row, rowFound, -⟩ := fits
  have counted : instructions.counts ⟨.identifier, phrase.mnemonic⟩ = true := by
    simp [InstructionSet.counts, InstructionSet.isMnemonic, rowFound]
  rw [Phrase.tokens, InstructionSet.mnemonicCount_cons, if_pos counted,
    phrase.spells.mnemonicCount]

theorem CommaSeparated.mnemonicCount {operands tokens : List Token}
    (separated : CommaSeparated operands tokens) :
    instructions.mnemonicCount tokens = instructions.mnemonicCount operands := by
  induction separated with
  | nil => rfl
  | single operand => rfl
  | cons operand comma rest ih =>
      have skipped : instructions.counts ⟨.comma, comma⟩ = false := by
        simp [InstructionSet.counts]
      rw [InstructionSet.mnemonicCount_cons, InstructionSet.mnemonicCount_cons,
        ih, skipped, InstructionSet.mnemonicCount_cons operand]
      simp

theorem InstructionSet.mnemonicCount_eq_countP (tokens : List Token) :
    instructions.mnemonicCount tokens =
      ((tokens.filter (·.kind = .identifier)).map Token.text).countP
        instructions.isMnemonic := by
  rw [List.countP_map, List.countP_filter]
  exact List.countP_congr fun token _ => by
    simp [counts, Bool.and_comm]

namespace Statement

theorem mnemonicCount_tokens {statement : Statement}
    (fits : statement.FitsTable instructions) :
    instructions.mnemonicCount statement.tokens =
      (if statement.isInstruction then 1 else 0) +
        statement.operandNames.countP instructions.isMnemonic := by
  cases statement with
  | label name =>
      simp [tokens, InstructionSet.mnemonicCount, InstructionSet.counts,
        operandNames, isInstruction]
  | directive line =>
      have skipped : instructions.counts ⟨.directive, line.name⟩ = false := by
        simp [InstructionSet.counts]
      rw [tokens, InstructionSet.mnemonicCount_cons, skipped,
        line.separated.mnemonicCount,
        InstructionSet.mnemonicCount_eq_countP]
      rfl
  | instruction phrase => exact Phrase.mnemonicCount_tokens fits

/-- Over statements the walk counts the instructions and, beside them, the
operands that are spelled like mnemonics. -/
theorem mnemonicCount_flatMap_tokens {statements : List Statement}
    (fits : ∀ statement ∈ statements, statement.FitsTable instructions) :
    instructions.mnemonicCount (statements.flatMap tokens) =
      instructionCount statements +
        operandMnemonicCount instructions statements := by
  induction statements with
  | nil => rfl
  | cons statement statements ih =>
      rw [List.flatMap_cons, InstructionSet.mnemonicCount_append,
        mnemonicCount_tokens (fits statement List.mem_cons_self),
        ih fun later member => fits later (.tail _ member)]
      simp only [instructionCount, operandMnemonicCount, List.countP_cons,
        List.flatMap_cons, List.countP_append]
      omega

theorem instructionCount_append (first second : List Statement) :
    instructionCount (first ++ second) =
      instructionCount first + instructionCount second :=
  List.countP_append

theorem instructionCount_map_instruction {Item : Type} (phrase : Item → Phrase)
    (items : List Item) :
    instructionCount (items.map fun item => instruction (phrase item)) =
      items.length := by
  rw [instructionCount, List.countP_map, List.countP_eq_length]
  exact fun _ _ => rfl

end Statement

/-! ## Definitions -/

theorem CommaSeparated.mem_or_comma {operands tokens : List Token}
    (separated : CommaSeparated operands tokens) {token : Token}
    (member : token ∈ tokens) : token ∈ operands ∨ token.kind = .comma := by
  induction separated with
  | nil => cases member
  | single operand => exact .inl member
  | cons operand comma rest ih =>
      rcases List.mem_cons.mp member with rfl | member
      · exact .inl List.mem_cons_self
      rcases List.mem_cons.mp member with rfl | member
      · exact .inr rfl
      · exact (ih member).imp_left (.tail _)

theorem Phrase.kind_ne_of_mem_tokens {phrase : Phrase} {token : Token}
    (member : token ∈ phrase.tokens) :
    token.kind ≠ .label ∧ token.kind ≠ .directive := by
  obtain ⟨mnemonic, operands, operandTokens, spells⟩ := phrase
  rcases List.mem_cons.mp member with rfl | member
  · simp
  · cases spells <;> simp at member <;>
      (rcases member with rfl | rfl | rfl | rfl | rfl | rfl) <;> simp

/-- No label ends a sequence of phrases. -/
theorem Phrase.kind_ne_label_of_mem_flatMap {phrases : List Phrase} :
    ∀ token ∈ phrases.flatMap tokens, decide (token.kind ≠ .label) = true := by
  intro token member
  obtain ⟨phrase, -, inPhrase⟩ := List.mem_flatMap.mp member
  exact decide_eq_true (kind_ne_of_mem_tokens inPhrase).1

namespace Statement

/-- Only a label statement defines a name. -/
theorem eq_label_of_defines {statement : Statement} {token : Token}
    {name : String} (member : token ∈ statement.tokens)
    (defines : token.Defines name) :
    ∃ defined, statement = .label defined ∧
      Text.foldCase defined = Text.foldCase name := by
  obtain ⟨isLabel, sameName⟩ := defines
  cases statement with
  | label defined =>
      obtain rfl := List.mem_singleton.mp member
      exact ⟨defined, rfl, sameName⟩
  | directive line =>
      rcases List.mem_cons.mp member with rfl | member
      · cases isLabel
      rcases line.separated.mem_or_comma member with operand | comma
      · rcases line.kinds token operand with kindEq | kindEq <;>
          simp [kindEq] at isLabel
      · simp [comma] at isLabel
  | instruction phrase => exact absurd isLabel (Phrase.kind_ne_of_mem_tokens member).1

/-- A name is bound to the address reached at its last label statement. -/
theorem find?_walk_flatMap_tokens {base : UInt32}
    {before after : List Statement} {name : String}
    (fits : ∀ statement ∈ before, statement.FitsTable instructions)
    (last : ∀ later, .label later ∈ after →
      Text.foldCase later ≠ Text.foldCase name) :
    (LabelBinding.walk instructions base
        ((before ++ label name :: after).flatMap tokens)).symbols.find? name =
      some (wordAddress base (instructionCount before +
        operandMnemonicCount instructions before)) := by
  rw [List.flatMap_append, List.flatMap_cons, ← mnemonicCount_flatMap_tokens fits]
  apply LabelBinding.find?_walk_of_defines ⟨rfl, rfl⟩
  intro token member defines
  obtain ⟨statement, inAfter, member⟩ := List.mem_flatMap.mp member
  obtain ⟨defined, rfl, sameName⟩ := eq_label_of_defines member defines
  exact last defined inAfter sameName

/-- A label is bound to the address that lies one word further for every
operand spelled like a mnemonic before it.  It is bound to its distance in
instructions exactly when these words make up whole rounds of the address
space, so in particular when there are none. -/
theorem find?_ofTokens_label {settings : Settings}
    (scope : settings.labelScope = .everywhere)
    {before after : List Statement} {name : String}
    (fits : ∀ statement ∈ before, statement.FitsTable instructions)
    (last : ∀ later, .label later ∈ after →
      Text.foldCase later ≠ Text.foldCase name) :
    let symbols := SymbolTable.ofTokens instructions settings
      ((before ++ label name :: after).flatMap tokens)
    symbols.find? name = some (wordAddress settings.baseAddress
        (instructionCount before +
          operandMnemonicCount instructions before)) ∧
      (symbols.find? name =
          some (wordAddress settings.baseAddress (instructionCount before)) ↔
        operandMnemonicCount instructions before % 0x40000000 = 0) := by
  intro symbols
  have bound : symbols.find? name = some (wordAddress settings.baseAddress
      (instructionCount before + operandMnemonicCount instructions before)) := by
    simp only [symbols, SymbolTable.ofTokens, scope, LabelScope.tokens]
    exact find?_walk_flatMap_tokens fits last
  refine ⟨bound, ?_⟩
  rw [bound, Option.some.injEq, wordAddress_eq_iff]
  omega

/-- A jump to a label that is spelled like a mnemonic. -/
def jumpToAdd : Statement :=
  .instruction ⟨"j", .jump "add", _, .jump "add"⟩

theorem jumpToAdd_fitsTable : jumpToAdd.FitsTable Mips32.instructionSet :=
  ⟨⟨"j", .jump 0x02⟩, by decide +kernel, .jump 0x02 "add"⟩

/-- A label after one jump to itself, if its name is a mnemonic, is bound two
words after the base. -/
theorem find?_ofTokens_label_add :
    (SymbolTable.ofTokens Mips32.instructionSet {}
      ([jumpToAdd, label "add"].flatMap tokens)).find? "add" =
        some 0x00400008 := by
  have bound := (@find?_ofTokens_label Mips32.instructionSet {} rfl [jumpToAdd]
    [] "add" (List.forall_mem_singleton.mpr jumpToAdd_fitsTable) (by simp)).1
  exact bound.trans (by decide +kernel)

/-- Labels are not always bound to their distances in instructions. -/
theorem not_forall_find?_ofTokens_eq_instructionCount :
    ¬ ∀ (base : UInt32) (before after : List Statement) (name : String),
      (∀ statement ∈ before, statement.FitsTable Mips32.instructionSet) →
      (∀ later, .label later ∈ after →
        Text.foldCase later ≠ Text.foldCase name) →
      (SymbolTable.ofTokens Mips32.instructionSet ⟨base, "main", .everywhere⟩
        ((before ++ label name :: after).flatMap tokens)).find? name =
          some (wordAddress base (instructionCount before)) := by
  intro law
  have bound := law 0x00400000 [jumpToAdd] [] "add"
    (List.forall_mem_singleton.mpr jumpToAdd_fitsTable) (by simp)
  exact absurd bound (by decide +kernel)

end Statement

end MipsAssembler
