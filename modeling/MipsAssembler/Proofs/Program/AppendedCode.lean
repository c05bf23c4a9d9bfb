import MipsAssembler.Proofs.Program.LabelScope
import MipsAssembler.Proofs.Source.Lines

/-!
# Code below a program

A program stays as it is when other code with labels of its own is written
below it.  The code of the entry label still ends where it did, and the labels
that it refers to keep their addresses; the labels of the other code are bound
as if its own first instruction came after the last one of the program.
-/

namespace MipsAssembler

section

variable {instructions : InstructionSet} {symbols : SymbolTable}
  {settings : Settings} {firstTokens secondTokens : List Token}

/-! ## Tokens below a program -/

/-- The code of the entry label ends at the first label below, if not
before. -/
theorem entryBody?_append_of_head?
    (defined : settings.entryToken ∈ firstTokens)
    (beginsWithLabel : ∀ token, secondTokens.head? = some token →
      token.kind = .label) :
    entryBody? settings.entryLabel (firstTokens ++ secondTokens) =
      entryBody? settings.entryLabel firstTokens := by
  obtain ⟨before, rest, rfl, first⟩ := List.eq_append_cons_of_mem defined
  have stops : secondTokens.takeWhile (·.kind ≠ .label) = [] := by
    cases secondTokens with
    | nil => rfl
    | cons token tokens => simp [beginsWithLabel token rfl]
  rw [List.append_assoc, List.cons_append, entryBody?_append first,
    entryBody?_append first, List.takeWhile_append, stops, List.append_nil]
  split
  · next all =>
    have whole := (List.takeWhile_prefix _).eq_of_length all
    rw [whole]
  · rfl

/-- The scope of labels extends to all that is below it. -/
theorem LabelScope.tokens_append {scope : LabelScope}
    (begins : scope = .everywhere ∨ ⟨.directive, "text"⟩ ∈ firstTokens) :
    scope.tokens (firstTokens ++ secondTokens) =
      scope.tokens firstTokens ++ secondTokens := by
  cases scope with
  | everywhere => rfl
  | afterText =>
      have member : (⟨.directive, "text"⟩ : Token) ∈ firstTokens := by
        simpa using begins
      obtain ⟨before, rest, rfl, first⟩ := List.eq_append_cons_of_mem member
      rw [List.append_assoc, List.cons_append, tokens_afterText_append first,
        tokens_afterText_append first]

/-! ## Instructions under other bindings -/

/-- An instruction depends on the bindings of its own labels only. -/
theorem Phrase.instruction?_congr {phrase : Phrase} {others : SymbolTable}
    (same : ∀ name ∈ phrase.operands.labels,
      others.find? name = symbols.find? name) (here : UInt32) :
    phrase.instruction? instructions others here =
      phrase.instruction? instructions symbols here := by
  have sameValues : phrase.values? instructions others =
      phrase.values? instructions symbols := by
    unfold values?
    cases operandsEq : phrase.operands with
    | branchOnZero rs target | branchOnPair rs rt target | jump target =>
        rw [operandsEq] at same
        have sameTarget := same target List.mem_cons_self
        simp only [OperandList.traverse?, sameTarget]
    | _ => rfl
  rw [instruction?, instruction?, sameValues]

theorem Phrase.instructions?_congr {phrases : List Phrase}
    {others : SymbolTable} (base : UInt32)
    (same : ∀ phrase ∈ phrases, ∀ name ∈ phrase.operands.labels,
      others.find? name = symbols.find? name) :
    instructions? instructions others base phrases =
      instructions? instructions symbols base phrases := by
  apply List.ext_getElem
  · simp [instructions?]
  · intro index inside _
    have inPhrases : index < phrases.length := by
      simpa [instructions?] using inside
    simpa [instructions?] using
      instruction?_congr (same _ (List.getElem_mem inPhrases)) _

/-! ## Labels of two programs -/

theorem Token.IsNormal.foldCase_label {token : Token}
    (normal : token.IsNormal instructions) (isLabel : token.kind = .label) :
    Text.foldCase token.text = token.text := by
  have isWord : Text.isLowerWord token.text = true := by
    simpa [IsNormal, isLabel] using normal
  exact Text.foldCase_of_isLowerName (Bool.and_eq_true_iff.mp isWord).1

/-- Two labels of source texts define one name only if they are equal. -/
theorem Token.text_eq_of_defines {first second : Token} {name : String}
    (firstNormal : first.IsNormal instructions)
    (secondNormal : second.IsNormal instructions)
    (firstDefines : first.Defines name) (secondDefines : second.Defines name) :
    first.text = second.text := by
  calc
    first.text = Text.foldCase first.text :=
      (firstNormal.foldCase_label firstDefines.1).symm
    _ = Text.foldCase second.text :=
      firstDefines.2.trans secondDefines.2.symm
    _ = second.text := secondNormal.foldCase_label secondDefines.1

end

/-- A program that is assembled is assembled to the same instructions when
code with other labels is written below it.  All labels of the program keep
their addresses.  The others are bound as in the code by itself, with the
address after the last instruction of the program as its base. -/
theorem assemble_append {settings : Settings} {first second : String}
    {firstTokens secondTokens : List Token} {assembly : Assembly}
    (assembled : assemble settings first = .ok assembly)
    (firstTokenized : Token.ofSource Mips32.instructionSet first =
      .ok firstTokens)
    (defined : settings.entryToken ∈ firstTokens)
    (begins : settings.labelScope = .everywhere ∨
      ⟨.directive, "text"⟩ ∈ firstTokens)
    (secondTokenized : Token.ofSource Mips32.instructionSet second =
      .ok secondTokens)
    (beginsWithLabel : ∀ token, secondTokens.head? = some token →
      token.kind = .label)
    (distinct : ∀ token ∈ firstTokens, ∀ other ∈ secondTokens,
      token.kind = .label → other.kind = .label → token.text ≠ other.text) :
    let count := Mips32.instructionSet.mnemonicCount
      (settings.labelScope.tokens firstTokens)
    let appended := SymbolTable.ofTokens Mips32.instructionSet
      { settings with
        baseAddress := wordAddress settings.baseAddress count
        labelScope := .everywhere } secondTokens
    ∃ extended, assemble settings (first ++ "\n" ++ second) = .ok extended ∧
      extended.baseAddress = assembly.baseAddress ∧
      extended.instructions = assembly.instructions ∧
      (∀ name address, assembly.symbols.find? name = some address →
        extended.symbols.find? name = some address) ∧
      (∀ name, (extended.symbols.find? name).isSome ∧
          assembly.symbols.find? name = none ↔
        ∃ token ∈ secondTokens, token.Defines name) ∧
      ∀ name, assembly.symbols.find? name = none →
        extended.symbols.find? name = appended.find? name := by
  intro count appended
  obtain ⟨tokens, phrases, tokenized, baseEq, symbolsEq, bodyEq, denote⟩ :=
    assemble_eq_ok_iff_phrases.mp assembled
  obtain rfl : tokens = firstTokens :=
    Except.ok.inj (tokenized.symm.trans firstTokenized)
  let symbols := SymbolTable.ofTokens Mips32.instructionSet settings
    (tokens ++ secondTokens)
  have bindings : ∀ name, symbols.find? name =
      (appended.find? name).or (assembly.symbols.find? name) := by
    intro name
    rw [symbolsEq]
    simp only [symbols, SymbolTable.ofTokens, LabelScope.tokens_append begins]
    exact LabelBinding.find?_walk_append ..
  have appendedNames : ∀ name, (appended.find? name).isSome ↔
      ∃ token ∈ secondTokens, token.Defines name :=
    fun name => LabelBinding.isSome_find?_walk_iff
  -- A name of the program is not defined again below it.
  have kept : ∀ name address, assembly.symbols.find? name = some address →
      appended.find? name = none := by
    intro name address found
    have bound : (assembly.symbols.find? name).isSome := by
      rw [found]
      rfl
    rw [symbolsEq] at bound
    obtain ⟨token, inScope, defines⟩ :=
      LabelBinding.isSome_find?_walk_iff.mp bound
    have inFirst : token ∈ tokens :=
      (settings.labelScope.isSuffix_tokens tokens).subset inScope
    rw [← Option.not_isSome_iff_eq_none, appendedNames]
    rintro ⟨other, inSecond, definesToo⟩
    apply distinct token inFirst other inSecond defines.1 definesToo.1
    exact Token.text_eq_of_defines
      (Token.isNormal_of_ofSource firstTokenized inFirst)
      (Token.isNormal_of_ofSource secondTokenized inSecond)
      defines definesToo
  have keeps : ∀ name address, assembly.symbols.find? name = some address →
      symbols.find? name = some address := by
    intro name address found
    rw [bindings, kept name address found, found]
    rfl
  have adds : ∀ name, assembly.symbols.find? name = none →
      symbols.find? name = appended.find? name := by
    intro name unbound
    rw [bindings, unbound, Option.or_none]
  have denoteToo : Phrase.instructions? Mips32.instructionSet symbols
      settings.baseAddress phrases = assembly.instructions.map some := by
    rw [← denote]
    apply Phrase.instructions?_congr
    intro phrase member name inPhrase
    have valid := Phrase.exists_instructions?_iff.mp ⟨_, denote⟩
    obtain ⟨address, found⟩ := Option.isSome_iff_exists.mp
      ((valid phrase member).labels name inPhrase)
    rw [keeps name address found, found]
  refine ⟨⟨settings.baseAddress, symbols, assembly.instructions⟩, ?_,
    baseEq.symm, rfl, keeps, ?_, adds⟩
  · apply assemble_eq_ok_iff_phrases.mpr
    refine ⟨tokens ++ secondTokens, phrases,
      Token.ofSource_append_lineFeed firstTokenized secondTokenized, rfl, rfl,
      ?_, denoteToo⟩
    rw [entryBody?_append_of_head? defined beginsWithLabel, bodyEq]
  · intro name
    rw [← appendedNames]
    constructor
    · rintro ⟨bound, unbound⟩
      rwa [← adds name unbound]
    · intro bound
      cases found : assembly.symbols.find? name with
      | none => exact ⟨by rwa [adds name found], rfl⟩
      | some address =>
          rw [kept name address found] at bound
          cases bound

/-! ### A program that ends with a comment -/

namespace CommentedEnd

def source : String :=
  "main: j main # done"

def below : String :=
  "End: add $t0, $t0, $t0\nlast:"

def tokens : List Token :=
  Settings.entryToken {} :: EntryRedefined.jump.tokens

def tokensBelow : List Token :=
  ⟨.label, "end"⟩ :: CodeAhead.add.tokens ++ [⟨.label, "last"⟩]

def assembly : Assembly where
  baseAddress := 0x00400000
  symbols := .ofList [("main", 0x00400000)]
  instructions := [.jump 2 0x00400000]

theorem assembled : assemble {} source = .ok assembly := by
  decide +kernel

theorem tokenized : Token.ofSource Mips32.instructionSet source = .ok tokens := by
  decide +kernel

theorem tokenizedBelow :
    Token.ofSource Mips32.instructionSet below = .ok tokensBelow := by
  decide +kernel

theorem distinct : ∀ token ∈ tokens, ∀ other ∈ tokensBelow,
    token.kind = .label → other.kind = .label → token.text ≠ other.text := by
  decide +kernel

/-- The comment ends with its line, and the code below begins at the address
after the jump. -/
theorem exists_extended :
    ∃ extended, assemble {} (source ++ "\n" ++ below) = .ok extended ∧
      extended.instructions = assembly.instructions ∧
      extended.symbols.find? "main" = some 0x00400000 ∧
      extended.symbols.find? "last" = some 0x00400008 := by
  have beginsWithLabel : ∀ token, tokensBelow.head? = some token →
      token.kind = .label := by
    rintro token ⟨⟩
    rfl
  obtain ⟨extended, ran, -, sameCode, keeps, -, adds⟩ :=
    assemble_append assembled tokenized (by decide) (.inl rfl) tokenizedBelow
      beginsWithLabel distinct
  refine ⟨extended, ran, sameCode, keeps _ _ (by decide +kernel), ?_⟩
  rw [adds "last" (by decide +kernel)]
  decide +kernel

end CommentedEnd

end MipsAssembler
