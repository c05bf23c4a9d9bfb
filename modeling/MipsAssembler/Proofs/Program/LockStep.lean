import Mathlib.Control.Monad.Basic
import MipsAssembler.Proofs.Program.Assembly
import MipsAssembler.Proofs.Program.PhraseGrammar
import MipsAssembler.Proofs.Program.Statement

/-!
# The two address counters

Labels are bound in one walk over the source, and the code of the entry label
is encoded in another.  Each walk keeps an address of its own: the first moves
on at every identifier that names a mnemonic, the second at every finished
instruction, and it starts at the entry label.  This file compares the two
addresses at the instructions that are encoded.
-/

namespace MipsAssembler

variable {instructions : InstructionSet} {symbols : SymbolTable}

/-! ## The addresses along the code -/

namespace Phrase

/-- The number of label operands among phrases that are spelled like
mnemonics. -/
def targetMnemonicCount (instructions : InstructionSet)
    (phrases : List Phrase) : Nat :=
  Statement.operandMnemonicCount instructions
    (phrases.map Statement.instruction)

theorem mnemonicCount_flatMap_tokens {phrases : List Phrase}
    (fits : ∀ phrase ∈ phrases, phrase.FitsTable instructions) :
    instructions.mnemonicCount (phrases.flatMap tokens) =
      phrases.length + targetMnemonicCount instructions phrases := by
  have statementsFit : ∀ statement ∈ phrases.map Statement.instruction,
      statement.FitsTable instructions := List.forall_mem_map.mpr fits
  have counted := Statement.mnemonicCount_flatMap_tokens statementsFit
  have length : Statement.instructionCount
      (phrases.map Statement.instruction) = phrases.length :=
    Statement.instructionCount_map_instruction id phrases
  rw [List.flatMap_map, length] at counted
  exact counted

/-- After some of the phrases of a run, its address lies as many words after
the base as phrases were taken. -/
theorem run_take {phrases : List Phrase} {base : UInt32}
    {encoded : List Instruction}
    (denote : instructions? instructions symbols base phrases =
      encoded.map some) (index : Nat) :
    Encoding.run instructions symbols (.start base)
        ((phrases.take index).flatMap tokens) =
      .ok ⟨wordAddress base (phrases.take index).length,
        (encoded.take index).reverse, none⟩ := by
  have denoteTake : instructions? instructions symbols base
      (phrases.take index) = (encoded.take index).map some := by
    rw [List.map_take, ← denote, instructions?, instructions?]
    apply List.ext_getElem <;> simp
  have ran := run_flatMap_tokens denoteTake [] []
  simpa [Encoding.start, Encoding.run] using ran

end Phrase

/-- The address of the walk that binds labels, after the entry label and some
phrases of its code. -/
theorem LabelBinding.address_walk_entry {settings : Settings} {base : UInt32}
    {before : List Token} {phrases : List Phrase}
    (fits : ∀ phrase ∈ phrases, phrase.FitsTable instructions) :
    (walk instructions base (before ++
        settings.entryToken :: phrases.flatMap Phrase.tokens)).address =
      wordAddress base (phrases.length + (instructions.mnemonicCount before +
        Phrase.targetMnemonicCount instructions phrases)) := by
  have entryCounted : instructions.counts settings.entryToken = false := by
    simp [Settings.entryToken, InstructionSet.counts]
  rw [address_walk, InstructionSet.mnemonicCount_append,
    InstructionSet.mnemonicCount_cons, entryCounted,
    Phrase.mnemonicCount_flatMap_tokens fits]
  congr 1
  simp only [Bool.false_eq_true, if_false]
  omega

/-- Every encoded instruction is a phrase of the code of the entry label.
The two counters agree at its mnemonic exactly when the mnemonics ahead of the
entry label and the operands spelled like mnemonics make up whole rounds of
the address space, so in particular when there are none. -/
theorem assemble_address_eq_iff {settings : Settings} {source : String}
    {tokens : List Token} {assembly : Assembly}
    (assembled : assemble settings source = .ok assembly)
    (tokenized : Token.ofSource Mips32.instructionSet source = .ok tokens)
    (entry : EntryInScope settings tokens) :
    ∃ phrases : List Phrase,
      entry.body = phrases.flatMap Phrase.tokens ∧
      (∀ phrase ∈ phrases,
        phrase.IsValid Mips32.instructionSet assembly.symbols) ∧
      phrases.length = assembly.instructions.length ∧
      ∀ index < phrases.length,
        let passed := (phrases.take index).flatMap Phrase.tokens
        let encodingAddress := wordAddress settings.baseAddress index
        let bindingAddress :=
          (LabelBinding.walk Mips32.instructionSet settings.baseAddress
            (entry.before ++ settings.entryToken :: passed)).address
        Encoding.run Mips32.instructionSet assembly.symbols
            (.start settings.baseAddress) passed =
          .ok ⟨encodingAddress, (assembly.instructions.take index).reverse,
            none⟩ ∧
        (encodingAddress = bindingAddress ↔
          (Mips32.instructionSet.mnemonicCount entry.before +
              Phrase.targetMnemonicCount Mips32.instructionSet
                (phrases.take index)) % 0x40000000 = 0) := by
  obtain ⟨tokens, tokenizedToo, -, -, ran⟩ := assemble_eq_ok_iff.mp assembled
  obtain rfl : tokens = _ := Except.ok.inj (tokenizedToo.symm.trans tokenized)
  rw [entry.entryBody?_eq, Option.getD_some] at ran
  obtain ⟨phrases, bodyEq, denote⟩ := Instruction.ofTokens_eq_ok_iff.mp ran
  have valid := Phrase.exists_instructions?_iff.mp ⟨_, denote⟩
  refine ⟨phrases, bodyEq, valid, Phrase.length_eq_of_instructions? denote, fun index inside => ?_⟩
  have taken : (phrases.take index).length = index := by
    rw [List.length_take]
    omega
  intro passed encodingAddress bindingAddress
  constructor
  · simpa only [taken] using Phrase.run_take denote index
  · have fits : ∀ phrase ∈ phrases.take index,
        phrase.FitsTable Mips32.instructionSet :=
      fun phrase member => (valid phrase (List.mem_of_mem_take member)).fits
    simp only [encodingAddress, bindingAddress, passed]
    rw [LabelBinding.address_walk_entry fits, wordAddress_eq_iff, taken]
    omega

/-! ### Code ahead of the entry label -/

namespace CodeAhead

def source : String :=
  "add $t0, $t0, $t0\nmain: beq $t0, $t1, end\nadd $t0, $t0, $t0\nend:"

def add : Phrase :=
  ⟨"add", .threeRegister "t0" "t0" "t0", _,
    .threeRegister "t0" "t0" "t0" "," ","⟩

def branch : Phrase :=
  ⟨"beq", .branchOnPair "t0" "t1" "end", _,
    .branchOnPair "t0" "t1" "end" "," ","⟩

def phrases : List Phrase :=
  [branch, add]

def rest : List Token :=
  phrases.flatMap Phrase.tokens ++ [⟨.label, "end"⟩]

def tokens : List Token :=
  add.tokens ++ Settings.entryToken {} :: rest

def entry : EntryInScope {} tokens where
  skipped := []
  before := add.tokens
  rest := rest
  tokensEq := rfl
  scopeEq := rfl
  first := by decide +kernel

def assembly : Assembly where
  baseAddress := 0x00400000
  symbols := .ofList [("main", 0x00400004), ("end", 0x0040000C)]
  instructions := [.immediate 4 8 9 3, .register 0 8 8 8 0 0x20]

theorem tokenized : Token.ofSource Mips32.instructionSet source = .ok tokens := by
  decide +kernel

theorem assembled : assemble {} source = .ok assembly := by
  decide +kernel

theorem phrases_fitsTable :
    ∀ phrase ∈ phrases, phrase.FitsTable Mips32.instructionSet := by
  decide +kernel

/-- With one instruction ahead of the entry label, the counters disagree from
the first encoded instruction on. -/
theorem assemble_address_ne :
    wordAddress 0x00400000 0 ≠
      (LabelBinding.walk Mips32.instructionSet 0x00400000
        (add.tokens ++ [Settings.entryToken {}])).address := by
  obtain ⟨found, -, -, lengths, agree⟩ :=
    assemble_address_eq_iff assembled tokenized entry
  have atFirst := (agree 0 (lengths ▸ Nat.zero_lt_succ 1)).2
  rw [List.take_zero] at atFirst
  intro equal
  exact absurd (atFirst.mp equal) (by decide +kernel)

/-- The counters do not always agree. -/
theorem not_forall_assemble_address_eq :
    ¬ ∀ (settings : Settings) (source : String) (tokens : List Token)
      (assembly : Assembly),
      assemble settings source = .ok assembly →
      Token.ofSource Mips32.instructionSet source = .ok tokens →
      ∀ (entry : EntryInScope settings tokens) (phrases : List Phrase),
        entry.body = phrases.flatMap Phrase.tokens →
        (∀ phrase ∈ phrases, phrase.FitsTable Mips32.instructionSet) →
        ∀ index < phrases.length,
          wordAddress settings.baseAddress index =
            (LabelBinding.walk Mips32.instructionSet settings.baseAddress
              (entry.before ++ settings.entryToken ::
                (phrases.take index).flatMap Phrase.tokens)).address := by
  intro law
  have equal := law {} source tokens assembly assembled tokenized entry phrases
    (by decide +kernel) phrases_fitsTable 0 (Nat.zero_lt_succ 1)
  exact absurd equal (by decide +kernel)

end CodeAhead

end MipsAssembler
