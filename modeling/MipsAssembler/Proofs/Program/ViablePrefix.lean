import MipsAssembler.Proofs.Program.SymbolTable
import MipsAssembler.Proofs.Program.SyntacticError

/-!
# The token to blame

A run that has taken some tokens can still be completed, whatever it has
taken: registers and bound labels are there to fill the slots that are left.
So the token at which a run fails is the first one with which nothing can be
completed, and no token after it matters.
-/

namespace MipsAssembler

section

variable {instructions : InstructionSet} {symbols : SymbolTable}

/-! ## Blamed tokens -/

namespace SyntacticError

/-- The text of the token that is blamed; at the end of the tokens none is. -/
def blamedText? : SyntacticError → Option String
  | expected _ found => found.map Token.text
  | invalidInstruction name | undefinedLabel name => some name
  | invalidInteger text => some text

/-- What is said about the blamed token. -/
def complaint : SyntacticError → String
  | expected expectation _ => "Expected " ++ expectation.text ++ ", got "
  | invalidInstruction _ => "Invalid instruction "
  | undefinedLabel _ => "Undefined label "
  | invalidInteger _ => "Invalid integer "

/-- A message ends with the text of the blamed token. -/
theorem message_eq (error : SyntacticError) :
    error.message =
      error.complaint ++ error.blamedText?.getD "end of input" := by
  cases error <;> rfl

end SyntacticError

theorem Token.RefusedWith.blamedText? {token : Token} {error : SyntacticError}
    (refused : token.RefusedWith instructions symbols error) :
    error.blamedText? = some token.text := by
  cases refused <;> rfl

/-! ## Completing an instruction -/

section Completion

variable (hasRegister : ∃ name, (instructions.register? name).isSome)
  (hasLabel : ∃ name, (symbols.find? name).isSome)

include hasRegister hasLabel

/-- Some token fills a slot. -/
theorem Slot.exists_fill (slot : Slot) (operands : Operands) :
    ∃ token next,
      slot.fill instructions symbols token operands = .ok next := by
  have stores : ∃ text, (slot.store? instructions symbols text operands).isSome := by
    cases slot with
    | register field =>
        obtain ⟨name, known⟩ := hasRegister
        exact ⟨name, by rwa [store?, Option.isSome_map]⟩
    | integer => exact ⟨"0", by rw [store?, Option.isSome_map]; decide⟩
    | label =>
        obtain ⟨name, bound⟩ := hasLabel
        exact ⟨name, by rwa [store?, Option.isSome_map]⟩
    | comma | openParen | closeParen => exact ⟨"", rfl⟩
  obtain ⟨text, stored⟩ := stores
  obtain ⟨next, stored⟩ := Option.isSome_iff_exists.mp stored
  exact ⟨⟨slot.tokenKind, text⟩, next, fill_eq_ok_iff.mpr ⟨text, rfl, stored⟩⟩

theorem Slot.exists_filled (slots : List Slot) (operands : Operands) :
    ∃ tokens last, Filled instructions symbols slots tokens operands last := by
  induction slots generalizing operands with
  | nil => exact ⟨[], operands, .nil operands⟩
  | cons slot slots ih =>
      obtain ⟨token, next, filled⟩ :=
        slot.exists_fill hasRegister hasLabel operands
      obtain ⟨tokens, last, rest⟩ := ih next
      exact ⟨token :: tokens, last, .cons filled rest⟩

/-- From every state of a run, some tokens lead to the end of an
instruction. -/
theorem Encoding.exists_completion (encoding : Encoding) :
    ∃ extension last, run instructions symbols encoding extension = .ok last ∧
      last.current? = none := by
  cases current : encoding.current? with
  | none => exact ⟨[], encoding, rfl, current⟩
  | some partialInstruction =>
      obtain ⟨category, slot, later, operands⟩ := partialInstruction
      obtain ⟨extension, last, filled⟩ :=
        Slot.exists_filled hasRegister hasLabel (slot :: later) operands
      have resumed : encoding.proceed category operands (slot :: later) =
          encoding := by
        rw [proceed, ← current]
      have completed := run_proceed_of_filled filled encoding category []
      rw [resumed, List.append_nil] at completed
      exact ⟨extension, _, completed, rfl⟩

end Completion

/-! ## Viable prefixes -/

theorem Encoding.run_append {encoding reached : Encoding}
    {before : List Token}
    (ran : run instructions symbols encoding before = .ok reached)
    (after : List Token) :
    run instructions symbols encoding (before ++ after) =
      run instructions symbols reached after := by
  induction before generalizing encoding with
  | nil =>
      cases ran
      rfl
  | cons token before ih =>
      rw [run] at ran
      rw [List.cons_append, run]
      split at ran
      · cases ran
      · exact ih ran

namespace Instruction

variable {base : UInt32} {before : List Token} {reached : Encoding}

/-- Tokens that a run takes are the beginning of an accepted list. -/
theorem exists_ofTokens_append
    (hasRegister : ∃ name, (instructions.register? name).isSome)
    (hasLabel : ∃ name, (symbols.find? name).isSome)
    (ran : Encoding.run instructions symbols (.start base) before =
      .ok reached) :
    ∃ extension encoded, Instruction.ofTokens instructions symbols base
      (before ++ extension) = .ok encoded := by
  obtain ⟨extension, last, completed, complete⟩ :=
    reached.exists_completion hasRegister hasLabel
  refine ⟨extension, last.finished.reverse, ?_⟩
  rw [Instruction.ofTokens, Encoding.run_append ran, completed]
  simp only [Encoding.finish, complete]

/-- After a refused token, no token matters. -/
theorem ofTokens_append_of_refused {token : Token} {error : SyntacticError}
    (ran : Encoding.run instructions symbols (.start base) before =
      .ok reached)
    (refused : reached.step instructions symbols token = .error error)
    (after : List Token) :
    Instruction.ofTokens instructions symbols base
      (before ++ token :: after) = .error error := by
  rw [Instruction.ofTokens, Encoding.run_append ran, Encoding.run, refused]

/-- The token at a position is to blame for an error: the tokens ahead of it can
be completed, but not together with it.  At the end of the tokens none is to
blame; they have ended too early. -/
structure IsBlamed (instructions : InstructionSet) (symbols : SymbolTable)
    (base : UInt32) (tokens : List Token) (error : SyntacticError)
    (position : Nat) : Prop where
  bound : position ≤ tokens.length
  viable : ∃ extension encoded,
    Instruction.ofTokens instructions symbols base
      (tokens.take position ++ extension) = .ok encoded
  blames : ∀ inside : position < tokens.length,
    error.blamedText? = some tokens[position].text ∧
    ∀ others, tokens.take (position + 1) <+: others →
      Instruction.ofTokens instructions symbols base others = .error error
  ends : position = tokens.length → ∃ expectation,
    error = .expected expectation none

theorem isBlamed_of_refused {token : Token} {after : List Token}
    {error : SyntacticError}
    (hasRegister : ∃ name, (instructions.register? name).isSome)
    (hasLabel : ∃ name, (symbols.find? name).isSome)
    (ran : Encoding.run instructions symbols (.start base) before =
      .ok reached)
    (refused : reached.step instructions symbols token = .error error) :
    IsBlamed instructions symbols base (before ++ token :: after) error
      before.length where
  bound := by simp
  viable := by
    rw [List.take_left]
    exact exists_ofTokens_append hasRegister hasLabel ran
  blames inside := by
    have blamed : (before ++ token :: after)[before.length] = token := by simp
    rw [blamed]
    refine ⟨(Encoding.refusedWith_of_step refused).blamedText?, ?_⟩
    rintro others ⟨later, rfl⟩
    have upTo : (before ++ token :: after).take (before.length + 1) =
        before ++ [token] := by
      rw [List.append_cons, List.take_left' (by simp)]
    rw [upTo, List.append_assoc]
    exact ofTokens_append_of_refused ran refused later
  ends atEnd := by simp at atEnd

/-- If there is a register and some name is bound to an address, then every
refused token list has a token to blame, or it has ended too early. -/
theorem exists_isBlamed {tokens : List Token} {error : SyntacticError}
    (hasRegister : ∃ name, (instructions.register? name).isSome)
    (hasLabel : ∃ name, (symbols.find? name).isSome)
    (failed : Instruction.ofTokens instructions symbols base tokens =
      .error error) :
    ∃ position, IsBlamed instructions symbols base tokens error position := by
  unfold Instruction.ofTokens at failed
  split at failed
  · next ran =>
    cases failed
    obtain ⟨before, token, after, reached, rfl, taken, refused⟩ :=
      Encoding.exists_step_of_run ran
    exact ⟨_, isBlamed_of_refused hasRegister hasLabel taken refused⟩
  · next reached ran =>
    refine ⟨tokens.length, le_rfl, ?_, fun inside => absurd inside (lt_irrefl _),
      fun _ => ?_⟩
    · rw [List.take_length]
      exact exists_ofTokens_append hasRegister hasLabel ran
    · unfold Encoding.finish at failed
      split at failed <;> cases failed
      exact ⟨_, rfl⟩

end Instruction

end

/-- A token list that is refused has a viable prefix: some accepted list begins
with it.  If there is a token after this prefix, then this one is to blame:
the error names it, and every list that begins with the prefix and this token
is refused with the same error.  Otherwise the tokens have ended too early. -/
theorem Instruction.exists_viablePrefix {symbols : SymbolTable} {base : UInt32}
    {tokens : List Token} {error : SyntacticError}
    (nonempty : symbols.isEmpty = false)
    (failed : Instruction.ofTokens Mips32.instructionSet symbols base tokens =
      .error error) :
    ∃ position ≤ tokens.length,
      (∃ extension encoded,
        Instruction.ofTokens Mips32.instructionSet symbols base
          (tokens.take position ++ extension) = .ok encoded) ∧
      (∀ inside : position < tokens.length,
        error.blamedText? = some tokens[position].text ∧
        error.message = error.complaint ++ tokens[position].text ∧
        ∀ others, tokens.take (position + 1) <+: others →
          Instruction.ofTokens Mips32.instructionSet symbols base others =
            .error error) ∧
      (position = tokens.length → ∃ expectation,
        error = .expected expectation none ∧
        error.message =
          "Expected " ++ expectation.text ++ ", got " ++ "end of input") := by
  have hasRegister : ∃ name,
      (Mips32.instructionSet.register? name).isSome := ⟨"zero", by decide⟩
  obtain ⟨position, blamed⟩ := Instruction.exists_isBlamed hasRegister
    (SymbolTable.isEmpty_eq_false_iff.mp nonempty) failed
  refine ⟨position, blamed.bound, blamed.viable, fun inside => ?_,
    fun atEnd => ?_⟩
  · obtain ⟨named, stable⟩ := blamed.blames inside
    exact ⟨named, by rw [error.message_eq, named]; rfl, stable⟩
  · obtain ⟨expectation, rfl⟩ := blamed.ends atEnd
    exact ⟨expectation, rfl, rfl⟩

/-! ### A word after an offset -/

namespace MissingParenthesis

def symbols : SymbolTable :=
  .ofList [("main", 0x00400000)]

theorem refused :
    Instruction.ofTokens Mips32.instructionSet symbols 0 (tokens.drop 1) =
      .error error := by
  decide +kernel

/-- An offset may be followed by a base register, but not by a word: whatever
comes after the word, the error is the same. -/
theorem blames_word :
    (∃ extension encoded,
        Instruction.ofTokens Mips32.instructionSet symbols 0
          ((tokens.drop 1).take 4 ++ extension) = .ok encoded) ∧
      ∀ later, Instruction.ofTokens Mips32.instructionSet symbols 0
        (tokens.drop 1 ++ later) = .error error := by
  have nonempty : symbols.isEmpty = false := by decide +kernel
  obtain ⟨position, bound, viable, blames, ends⟩ :=
    Instruction.exists_viablePrefix nonempty refused
  have fiveTokens : (tokens.drop 1).length = 5 := rfl
  have inside : position < (tokens.drop 1).length := by
    refine lt_of_le_of_ne bound fun atEnd => ?_
    obtain ⟨expectation, errorEq, -⟩ := ends atEnd
    cases errorEq
  obtain ⟨named, -, stable⟩ := blames inside
  have onlyWord : ∀ (index : Nat) (before : index < (tokens.drop 1).length),
      some "main" = some (tokens.drop 1)[index].text → index = 4 := by
    decide +kernel
  obtain rfl : position = 4 := onlyWord position inside named
  exact ⟨viable, fun later => stable _ (List.prefix_append _ later)⟩

end MissingParenthesis

end MipsAssembler
