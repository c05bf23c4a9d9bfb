import MipsAssembler.Proofs.Program.SlotFilling
import MipsAssembler.Proofs.Program.WordAddress

/-!
# The grammar of instruction lists

A run over a token list succeeds exactly when the list is a sequence of valid
phrases, and its result is what the phrases denote at consecutive addresses.
-/

namespace MipsAssembler

variable {instructions : InstructionSet} {symbols : SymbolTable}

/-! ## Runs over slots -/

namespace Encoding

theorem proceed_current (encoding : Encoding)
    (current? : Option PartialInstruction) (category : Category)
    (operands : Operands) (slots : List Slot) :
    Encoding.proceed { encoding with current? := current? } category operands
        slots =
      encoding.proceed category operands slots := by
  cases slots <;> rfl

/-- Tokens that fill the remaining slots complete the instruction. -/
theorem run_proceed_of_filled {slots : List Slot} {chunk : List Token}
    {first last : Operands}
    (filled : Slot.Filled instructions symbols slots chunk first last)
    (encoding : Encoding) (category : Category) (rest : List Token) :
    run instructions symbols (encoding.proceed category first slots)
        (chunk ++ rest) =
      run instructions symbols (encoding.proceed category last []) rest := by
  induction filled with
  | nil operands => rfl
  | @cons slot slots token tokens first next last filled restFilled ih =>
      have stepEq : step instructions symbols
          (encoding.proceed category first (slot :: slots)) token =
            .ok (encoding.proceed category next slots) := by
        simp only [step, proceed, filled]
      rw [List.cons_append, run, stepEq]
      exact ih

/-- A complete run fills the remaining slots before it goes on. -/
theorem exists_filled_of_run {slots : List Slot} {encoding last : Encoding}
    {category : Category} {operands : Operands} {tokens : List Token}
    (ran : run instructions symbols (encoding.proceed category operands slots)
      tokens = .ok last)
    (complete : last.current? = none) :
    ∃ chunk rest stored, tokens = chunk ++ rest ∧
      Slot.Filled instructions symbols slots chunk operands stored ∧
      run instructions symbols (encoding.proceed category stored []) rest =
        .ok last := by
  induction slots generalizing operands tokens with
  | nil => exact ⟨[], tokens, operands, rfl, .nil operands, ran⟩
  | cons slot slots ih =>
      cases tokens with
      | nil =>
          cases ran
          cases complete
      | cons token tokens =>
          rw [run] at ran
          cases filled : slot.fill instructions symbols token operands with
          | error error => simp [step, proceed, filled] at ran
          | ok next =>
              have ranRest : run instructions symbols
                  (encoding.proceed category next slots) tokens = .ok last := by
                simp only [step, proceed, filled] at ran
                rw [← ran, ← proceed_current]
                rfl
              obtain ⟨chunk, rest, stored, rfl, restFilled, ranLast⟩ :=
                ih ranRest
              exact ⟨token :: chunk, rest, stored, rfl,
                .cons filled restFilled, ranLast⟩

end Encoding

/-! ## Runs over phrases -/

namespace Phrase

/-- A phrase has a meaning exactly when it is valid, at every address. -/
theorem isSome_instruction?_iff {here : UInt32} {phrase : Phrase} :
    (phrase.instruction? instructions symbols here).isSome ↔
      phrase.IsValid instructions symbols := by
  rw [Option.isSome_iff_exists]
  constructor
  · rintro ⟨instruction, denotes⟩
    obtain ⟨row, values, rowFound, valuesFound, takes, -⟩ :=
      instruction?_eq_some_iff.mp denotes
    obtain ⟨registers, integers, labels⟩ :=
      (OperandList.isSome_traverse? ..).mp
        (Option.isSome_iff_exists.mpr ⟨values, valuesFound⟩)
    exact ⟨⟨row, rowFound, takes⟩, registers, integers, labels⟩
  · rintro ⟨⟨row, rowFound, takes⟩, registers, integers, labels⟩
    obtain ⟨values, valuesFound⟩ := Option.isSome_iff_exists.mp
      ((OperandList.isSome_traverse? ..).mpr ⟨registers, integers, labels⟩)
    obtain ⟨instruction, denotes⟩ := Option.isSome_iff_exists.mp
      ((Category.isSome_denote? here row.category values).mpr
        ((Category.takes_iff_of_traverse? valuesFound).mpr takes))
    exact ⟨instruction, instruction?_eq_some_iff.mpr
      ⟨row, values, rowFound, valuesFound, takes, denotes⟩⟩

/-- A run takes a phrase and goes on at the next address. -/
theorem run_tokens {phrase : Phrase} {here : UInt32}
    {instruction : Instruction}
    (denotes : phrase.instruction? instructions symbols here =
      some instruction)
    (finished : List Instruction) (rest : List Token) :
    Encoding.run instructions symbols ⟨here, finished, none⟩
        (phrase.tokens ++ rest) =
      Encoding.run instructions symbols
        ⟨nextWord here, instruction :: finished, none⟩ rest := by
  obtain ⟨row, values, rowFound, valuesFound, takes, denotes⟩ :=
    instruction?_eq_some_iff.mp denotes
  obtain ⟨stored, filled, meaning⟩ :=
    Category.exists_filled_of_spells takes phrase.spells valuesFound
  have instructionEq : row.category.instruction here stored = instruction := by
    simpa [denotes] using (meaning here).symm
  have started : Encoding.step instructions symbols ⟨here, finished, none⟩
      ⟨.identifier, phrase.mnemonic⟩ =
        .ok (Encoding.proceed ⟨here, finished, none⟩ row.category {}
          row.category.slots) := by
    simp [Encoding.step, Encoding.startInstruction, rowFound]
  rw [tokens, List.cons_append, Encoding.run, started]
  change Encoding.run instructions symbols
    (Encoding.proceed ⟨here, finished, none⟩ row.category {}
      row.category.slots) (phrase.operandTokens ++ rest) = _
  rw [Encoding.run_proceed_of_filled filled, ← instructionEq]
  rfl

/-- A complete run over some token begins with a phrase. -/
theorem exists_phrase_of_run {here : UInt32} {finished : List Instruction}
    {token : Token} {tokens : List Token} {last : Encoding}
    (ran : Encoding.run instructions symbols ⟨here, finished, none⟩
      (token :: tokens) = .ok last)
    (complete : last.current? = none) :
    ∃ (phrase : Phrase) (rest : List Token) (instruction : Instruction),
      token :: tokens = phrase.tokens ++ rest ∧
      phrase.instruction? instructions symbols here = some instruction ∧
      Encoding.run instructions symbols
        ⟨nextWord here, instruction :: finished, none⟩ rest = .ok last := by
  obtain ⟨kind, text⟩ := token
  by_cases begins : kind = .identifier
  · subst begins
    cases rowFound : instructions.descriptor? text with
    | none =>
        simp [Encoding.run, Encoding.step, Encoding.startInstruction,
          rowFound] at ran
    | some row =>
        have ranRest : Encoding.run instructions symbols
            (Encoding.proceed ⟨here, finished, none⟩ row.category {}
              row.category.slots) tokens = .ok last := by
          simpa [Encoding.run, Encoding.step, Encoding.startInstruction,
            rowFound] using ran
        obtain ⟨chunk, rest, stored, rfl, filled, ranLast⟩ :=
          Encoding.exists_filled_of_run ranRest complete
        obtain ⟨operands, values, spells, takes, valuesFound, meaning⟩ :=
          Category.exists_operands_of_filled filled
        exact ⟨⟨text, operands, chunk, spells⟩, rest, _, rfl,
          instruction?_eq_some_iff.mpr
            ⟨row, values, rowFound, valuesFound, takes, meaning here⟩,
          ranLast⟩
  · simp [Encoding.run, Encoding.step, Encoding.startInstruction,
      begins] at ran

/-- What phrases denote one after another from an address on. -/
def instructions? (instructions : InstructionSet) (symbols : SymbolTable)
    (base : UInt32) (phrases : List Phrase) : List (Option Instruction) :=
  phrases.mapIdx fun index phrase =>
    phrase.instruction? instructions symbols (wordAddress base index)

theorem instructions?_cons (base : UInt32) (phrase : Phrase)
    (phrases : List Phrase) :
    instructions? instructions symbols base (phrase :: phrases) =
      phrase.instruction? instructions symbols base ::
        instructions? instructions symbols (nextWord base) phrases := by
  simp only [instructions?, List.mapIdx_cons, wordAddress_zero,
    wordAddress_nextWord]

theorem length_eq_of_instructions? {phrases : List Phrase} {base : UInt32}
    {encoded : List Instruction}
    (denote : instructions? instructions symbols base phrases =
      encoded.map some) : phrases.length = encoded.length := by
  simpa [instructions?] using congrArg List.length denote

theorem instruction?_getElem {phrases : List Phrase} {base : UInt32}
    {encoded : List Instruction}
    (denote : instructions? instructions symbols base phrases =
      encoded.map some)
    {index : Nat} (inPhrases : index < phrases.length)
    (inEncoded : index < encoded.length) :
    phrases[index].instruction? instructions symbols
        (wordAddress base index) = some encoded[index] := by
  have atIndex := congrArg (·[index]?) denote
  simpa [instructions?, inPhrases, inEncoded] using atIndex

/-- A run takes phrases one after another. -/
theorem run_flatMap_tokens {phrases : List Phrase} {here : UInt32}
    {encoded : List Instruction}
    (denote : instructions? instructions symbols here phrases =
      encoded.map some)
    (finished : List Instruction) (rest : List Token) :
    Encoding.run instructions symbols ⟨here, finished, none⟩
        (phrases.flatMap tokens ++ rest) =
      Encoding.run instructions symbols
        ⟨wordAddress here phrases.length, encoded.reverse ++ finished, none⟩
        rest := by
  induction phrases generalizing here encoded finished with
  | nil =>
      have nothing : encoded = [] := by simpa [instructions?] using denote.symm
      simp [nothing, wordAddress_zero]
  | cons phrase phrases ih =>
      rw [instructions?_cons] at denote
      cases encoded with
      | nil => cases denote
      | cons instruction encoded =>
          rw [List.map_cons, List.cons.injEq] at denote
          rw [List.flatMap_cons, List.append_assoc, run_tokens denote.1,
            ih denote.2, List.length_cons, wordAddress_nextWord]
          simp

/-- A complete run has taken phrases one after another. -/
theorem exists_phrases_of_run {here : UInt32} {finished : List Instruction}
    {tokens : List Token} {last : Encoding}
    (ran : Encoding.run instructions symbols ⟨here, finished, none⟩ tokens =
      .ok last)
    (complete : last.current? = none) :
    ∃ (phrases : List Phrase) (encoded : List Instruction),
      tokens = phrases.flatMap Phrase.tokens ∧
      instructions? instructions symbols here phrases = encoded.map some ∧
      last.finished = encoded.reverse ++ finished := by
  -- The rest after a phrase is shorter, but it is not a tail of the list.
  induction size : tokens.length using Nat.strongRecOn
    generalizing here finished tokens with
  | ind count ih =>
      cases tokens with
      | nil =>
          cases ran
          exact ⟨[], [], rfl, rfl, rfl⟩
      | cons token tokens =>
          obtain ⟨phrase, rest, instruction, split, denotes, ranRest⟩ :=
            exists_phrase_of_run ran complete
          have shorter : rest.length < count := by
            rw [← size, split, List.length_append, Phrase.tokens,
              List.length_cons]
            omega
          obtain ⟨phrases, encoded, restEq, denote, finishedEq⟩ :=
            ih rest.length shorter ranRest rfl
          refine ⟨phrase :: phrases, instruction :: encoded, ?_, ?_, ?_⟩
          · rw [split, restEq, List.flatMap_cons]
          · rw [instructions?_cons, denotes, denote, List.map_cons]
          · rw [finishedEq]
            simp

end Phrase

/-- A run gives what some sequence of phrases denotes, and nothing else. -/
theorem Instruction.ofTokens_eq_ok_iff {base : UInt32} {tokens : List Token}
    {encoded : List Instruction} :
    Instruction.ofTokens instructions symbols base tokens = .ok encoded ↔
      ∃ phrases : List Phrase, tokens = phrases.flatMap Phrase.tokens ∧
        Phrase.instructions? instructions symbols base phrases =
          encoded.map some := by
  constructor
  · intro assembled
    unfold Instruction.ofTokens at assembled
    split at assembled
    · cases assembled
    · next last ran =>
      unfold Encoding.finish at assembled
      split at assembled
      · next complete =>
        cases assembled
        obtain ⟨phrases, encoded, tokensEq, denote, finishedEq⟩ :=
          Phrase.exists_phrases_of_run ran complete
        refine ⟨phrases, tokensEq, ?_⟩
        simpa [finishedEq] using denote
      · cases assembled
  · rintro ⟨phrases, rfl, denote⟩
    have ran := Phrase.run_flatMap_tokens denote [] []
    simp only [List.append_nil] at ran
    unfold Instruction.ofTokens Encoding.start
    rw [ran]
    simp [Encoding.run, Encoding.finish]

/-! ## Decompositions -/

/-- Operand lists of one form that begin one token list are the same. -/
theorem Category.Takes.eq_of_append {category : Category}
    {first second : OperandList String String String}
    {firstTokens secondTokens firstRest secondRest : List Token}
    (firstTakes : category.Takes first) (secondTakes : category.Takes second)
    (firstSpells : first.Spells firstTokens)
    (secondSpells : second.Spells secondTokens)
    (split : firstTokens ++ firstRest = secondTokens ++ secondRest) :
    first = second ∧ firstTokens = secondTokens ∧ firstRest = secondRest := by
  cases firstTakes <;> cases secondTakes <;> cases firstSpells <;>
    cases secondSpells <;>
    simp_all

namespace Phrase

theorem eq_of_append {first second : Phrase} {firstRest secondRest : List Token}
    (firstFits : first.FitsTable instructions)
    (secondFits : second.FitsTable instructions)
    (split : first.tokens ++ firstRest = second.tokens ++ secondRest) :
    first = second ∧ firstRest = secondRest := by
  simp only [tokens, List.cons_append, List.cons.injEq, Token.mk.injEq,
    true_and] at split
  obtain ⟨mnemonicEq, split⟩ := split
  obtain ⟨row, rowFound, firstTakes⟩ := firstFits
  obtain ⟨other, otherFound, secondTakes⟩ := secondFits
  rw [mnemonicEq, otherFound, Option.some.injEq] at rowFound
  subst rowFound
  obtain ⟨operandsEq, tokensEq, restEq⟩ :=
    firstTakes.eq_of_append secondTakes first.spells second.spells split
  exact ⟨Phrase.ext mnemonicEq operandsEq tokensEq, restEq⟩

/-- A token list is a sequence of phrases in at most one way. -/
theorem eq_of_flatMap_tokens {first second : List Phrase}
    (firstFits : ∀ phrase ∈ first, phrase.FitsTable instructions)
    (secondFits : ∀ phrase ∈ second, phrase.FitsTable instructions)
    (same : first.flatMap tokens = second.flatMap tokens) : first = second := by
  induction first generalizing second with
  | nil =>
      cases second with
      | nil => rfl
      | cons phrase second => simp [tokens] at same
  | cons phrase first ih =>
      cases second with
      | nil => simp [tokens] at same
      | cons other second =>
          rw [List.flatMap_cons, List.flatMap_cons] at same
          obtain ⟨rfl, restEq⟩ := eq_of_append
            (firstFits phrase List.mem_cons_self)
            (secondFits other List.mem_cons_self) same
          rw [ih (fun member inFirst => firstFits member (.tail _ inFirst))
            (fun member inSecond => secondFits member (.tail _ inSecond))
            restEq]

/-- Phrases that all have a meaning are the valid ones. -/
theorem exists_instructions?_iff {base : UInt32} {phrases : List Phrase} :
    (∃ encoded : List Instruction,
        instructions? instructions symbols base phrases = encoded.map some) ↔
      ∀ phrase ∈ phrases, phrase.IsValid instructions symbols := by
  induction phrases generalizing base with
  | nil =>
      simp only [List.not_mem_nil, false_implies, implies_true, iff_true]
      exact ⟨[], rfl⟩
  | cons phrase phrases ih =>
      rw [List.forall_mem_cons, ← @ih (nextWord base),
        ← @isSome_instruction?_iff instructions symbols base phrase,
        instructions?_cons]
      constructor
      · rintro ⟨_ | ⟨instruction, encoded⟩, denote⟩
        · cases denote
        · rw [List.map_cons, List.cons.injEq] at denote
          exact ⟨by simp [denote.1], encoded, denote.2⟩
      · rintro ⟨denotes, encoded, denote⟩
        obtain ⟨instruction, denotes⟩ := Option.isSome_iff_exists.mp denotes
        exact ⟨instruction :: encoded, by rw [denotes, denote, List.map_cons]⟩

end Phrase

/-- A run over a token list succeeds exactly when the list is a sequence of
valid phrases.  There is then one such sequence, and the result holds, phrase
by phrase, what each one denotes at its address. -/
theorem Instruction.ofTokens_isOk_iff_phrases (instructions : InstructionSet)
    (symbols : SymbolTable) (base : UInt32) (tokens : List Token) :
    ((∃ encoded, Instruction.ofTokens instructions symbols base tokens =
          .ok encoded) ↔
        ∃ phrases : List Phrase, phrases.flatMap Phrase.tokens = tokens ∧
          ∀ phrase ∈ phrases, phrase.IsValid instructions symbols) ∧
      ∀ phrases : List Phrase, phrases.flatMap Phrase.tokens = tokens →
        (∀ phrase ∈ phrases, phrase.IsValid instructions symbols) →
        (∀ others : List Phrase, others.flatMap Phrase.tokens = tokens →
            (∀ phrase ∈ others, phrase.IsValid instructions symbols) →
            others = phrases) ∧
          ∃ encoded,
            Instruction.ofTokens instructions symbols base tokens =
              .ok encoded ∧
            encoded.map some = phrases.mapIdx fun index phrase =>
              phrase.instruction? instructions symbols
                (wordAddress base index) := by
  have assembles {phrases : List Phrase}
      (split : phrases.flatMap Phrase.tokens = tokens)
      (valid : ∀ phrase ∈ phrases, phrase.IsValid instructions symbols) :
      ∃ encoded,
        Instruction.ofTokens instructions symbols base tokens = .ok encoded ∧
        encoded.map some =
          Phrase.instructions? instructions symbols base phrases := by
    obtain ⟨encoded, denote⟩ := Phrase.exists_instructions?_iff.mpr valid
    exact ⟨encoded,
      Instruction.ofTokens_eq_ok_iff.mpr ⟨phrases, split.symm, denote⟩,
      denote.symm⟩
  refine ⟨⟨?_, ?_⟩, ?_⟩
  · rintro ⟨encoded, assembled⟩
    obtain ⟨phrases, split, denote⟩ :=
      Instruction.ofTokens_eq_ok_iff.mp assembled
    exact ⟨phrases, split.symm,
      Phrase.exists_instructions?_iff.mp ⟨encoded, denote⟩⟩
  · rintro ⟨phrases, split, valid⟩
    obtain ⟨encoded, assembled, -⟩ := assembles split valid
    exact ⟨encoded, assembled⟩
  · intro phrases split valid
    refine ⟨fun others otherSplit othersValid => ?_, assembles split valid⟩
    exact Phrase.eq_of_flatMap_tokens
      (fun phrase member => (othersValid phrase member).fits)
      (fun phrase member => (valid phrase member).fits)
      (otherSplit.trans split.symm)

end MipsAssembler
