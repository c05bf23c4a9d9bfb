import MipsAssembler.Proofs.Program.Assembly
import MipsAssembler.Proofs.Source.TokenText

/-!
# Errors of token lists

A run over tokens stops at the first token that it cannot take, and the error
says why.  Two of the reasons concern texts that reading never gives to a
token, so that no part of a source text can cause them: a register that is not
in the table, and a number that is too large for a signed 64-bit number.
-/

namespace MipsAssembler

variable {instructions : InstructionSet} {symbols : SymbolTable}

/-- The kind of token that is expected. -/
def Expectation.tokenKind : Expectation → TokenKind
  | instruction | label => .identifier
  | register => .register
  | integer => .number
  | comma => .comma
  | openParen => .openParen
  | closeParen => .closeParen

theorem Slot.tokenKind_expectation (slot : Slot) :
    slot.expectation.tokenKind = slot.tokenKind := by
  cases slot <;> rfl

/-! ## Refused tokens -/

/-- Why a token is not taken, and the error that says so. -/
inductive Token.RefusedWith (instructions : InstructionSet)
    (symbols : SymbolTable) : Token → SyntacticError → Prop
  | wrongKind (expectation : Expectation) (token : Token)
      (different : token.kind ≠ expectation.tokenKind) :
      RefusedWith instructions symbols token
        (.expected expectation (some token))
  | unknownRegister (name : String)
      (unknown : instructions.register? name = none) :
      RefusedWith instructions symbols ⟨.register, name⟩
        (.expected .register (some ⟨.register, name⟩))
  | unknownInstruction (name : String)
      (unknown : instructions.descriptor? name = none) :
      RefusedWith instructions symbols ⟨.identifier, name⟩
        (.invalidInstruction name)
  | undefinedLabel (name : String) (unbound : symbols.find? name = none) :
      RefusedWith instructions symbols ⟨.identifier, name⟩
        (.undefinedLabel name)
  | invalidInteger (text : String)
      (invalid : Token.integer? ⟨.number, text⟩ = none) :
      RefusedWith instructions symbols ⟨.number, text⟩ (.invalidInteger text)

theorem Slot.refusedWith_of_fill {slot : Slot} {token : Token}
    {operands : Operands} {error : SyntacticError}
    (refused : slot.fill instructions symbols token operands = .error error) :
    token.RefusedWith instructions symbols error := by
  obtain ⟨kind, text⟩ := token
  by_cases fits : kind = slot.tokenKind
  · -- Only slots that look their text up refuse a token of their own kind.
    subst fits
    cases slot with
    | register field =>
        cases found : instructions.register? text <;>
          simp [fill, found] at refused
        subst refused
        exact .unknownRegister text found
    | integer =>
        cases found : Token.integer? ⟨.number, text⟩ <;>
          simp [fill, found, tokenKind] at refused
        subst refused
        exact .invalidInteger text found
    | label =>
        cases found : symbols.find? text <;> simp [fill, found] at refused
        subst refused
        exact .undefinedLabel text found
    | _ => simp [fill] at refused
  · simp [fill, fits] at refused
    subst refused
    exact .wrongKind _ _ (slot.tokenKind_expectation ▸ fits)

namespace Encoding

theorem refusedWith_of_step {encoding : Encoding} {token : Token}
    {error : SyntacticError}
    (refused : encoding.step instructions symbols token = .error error) :
    token.RefusedWith instructions symbols error := by
  unfold step at refused
  split at refused
  · unfold startInstruction at refused
    split at refused
    · next different =>
      cases refused
      exact .wrongKind .instruction token different
    split at refused
    · next begins _ unknown =>
      cases refused
      obtain ⟨kind, text⟩ := token
      obtain rfl : kind = .identifier := Decidable.not_not.mp begins
      exact .unknownInstruction text unknown
    · cases refused
  · split at refused
    · next fillRefused =>
      cases refused
      exact Slot.refusedWith_of_fill fillRefused
    · cases refused

/-- A run that fails takes all tokens ahead of one that it refuses. -/
theorem exists_step_of_run {encoding : Encoding} {tokens : List Token}
    {error : SyntacticError}
    (failed : run instructions symbols encoding tokens = .error error) :
    ∃ before token after reached, tokens = before ++ token :: after ∧
      run instructions symbols encoding before = .ok reached ∧
      reached.step instructions symbols token = .error error := by
  induction tokens generalizing encoding with
  | nil => cases failed
  | cons token tokens ih =>
      rw [run] at failed
      split at failed
      · next refused =>
        cases failed
        exact ⟨[], token, tokens, encoding, rfl, rfl, refused⟩
      · next next taken =>
        obtain ⟨before, other, after, reached, rfl, ran, refused⟩ := ih failed
        refine ⟨token :: before, other, after, reached, rfl, ?_, refused⟩
        rw [run, taken]
        exact ran

end Encoding

/-- A token list is refused at one of its tokens or at its end. -/
theorem Instruction.refusedWith_of_ofTokens {base : UInt32}
    {tokens : List Token} {error : SyntacticError}
    (failed : Instruction.ofTokens instructions symbols base tokens =
      .error error) :
    (∃ token ∈ tokens, token.RefusedWith instructions symbols error) ∨
      ∃ expectation, error = .expected expectation none := by
  unfold Instruction.ofTokens at failed
  split at failed
  · next ran =>
    cases failed
    obtain ⟨before, token, after, reached, rfl, -, refused⟩ :=
      Encoding.exists_step_of_run ran
    exact .inl ⟨token, List.mem_append_right _ List.mem_cons_self,
      Encoding.refusedWith_of_step refused⟩
  · unfold Encoding.finish at failed
    split at failed
    · cases failed
    · cases failed
      exact .inr ⟨_, rfl⟩

/-! ## Tokens of source texts -/

/-- The errors that tokens of a source text may cause. -/
inductive SyntacticError.Concerns (instructions : InstructionSet)
    (symbols : SymbolTable) (tokens : List Token) : SyntacticError → Prop
  | atEnd (expectation : Expectation) :
      Concerns instructions symbols tokens (.expected expectation none)
  | wrongKind (expectation : Expectation) (token : Token)
      (member : token ∈ tokens)
      (different : token.kind ≠ expectation.tokenKind) :
      Concerns instructions symbols tokens
        (.expected expectation (some token))
  | unknownInstruction (name : String) (member : ⟨.identifier, name⟩ ∈ tokens)
      (unknown : instructions.descriptor? name = none) :
      Concerns instructions symbols tokens (.invalidInstruction name)
  | undefinedLabel (name : String) (member : ⟨.identifier, name⟩ ∈ tokens)
      (unbound : symbols.find? name = none) :
      Concerns instructions symbols tokens (.undefinedLabel name)

/-- Tokens in normal form have registers of the table and 64-bit numbers, so
that two of the reasons to refuse them are left out. -/
theorem Instruction.concerns_of_ofTokens {base : UInt32} {tokens : List Token}
    {error : SyntacticError}
    (normal : ∀ token ∈ tokens, token.IsNormal instructions)
    (failed : Instruction.ofTokens instructions symbols base tokens =
      .error error) :
    error.Concerns instructions symbols tokens := by
  rcases refusedWith_of_ofTokens failed with
    ⟨token, member, refused⟩ | ⟨expectation, rfl⟩
  · have normalForm := normal token member
    cases refused with
    | wrongKind expectation token different =>
        exact .wrongKind expectation token member different
    | unknownRegister name unknown =>
        have known := normalForm.2
        rw [unknown] at known
        cases known
    | unknownInstruction name unknown =>
        exact .unknownInstruction name member unknown
    | undefinedLabel name unbound => exact .undefinedLabel name member unbound
    | invalidInteger text invalid =>
        obtain ⟨number, fits, rfl⟩ := normalForm
        rw [Token.integer?_write fits] at invalid
        cases invalid
  · exact .atEnd expectation

/-- No part of a source text is refused because a number is too large or a
register unknown, whatever labels are bound.  An assembly that gets beyond its
tokens therefore fails at their end, at a token of the wrong kind, for an
unknown mnemonic or for a label that is not bound; and it never stops at a
label, since the code of the entry label holds none. -/
theorem Assembly.concerns_of_ofSource (instructions : InstructionSet)
    (source : String) :
    (∀ tokens, Token.ofSource instructions source = .ok tokens →
      ∀ part, part <:+: tokens → ∀ symbols base,
        (∀ text, Instruction.ofTokens instructions symbols base part ≠
          .error (.invalidInteger text)) ∧
        ∀ token : Token, token.kind = .register →
          Instruction.ofTokens instructions symbols base part ≠
            .error (.expected .register (some token))) ∧
      ∀ settings error,
        Assembly.ofSource instructions settings source = .error error →
        (∃ lexical, Token.ofSource instructions source = .error lexical ∧
          error = .lexical lexical) ∨
        ∃ tokens syntactic, Token.ofSource instructions source = .ok tokens ∧
          error = .syntactic syntactic ∧
          syntactic.Concerns instructions
            (SymbolTable.ofTokens instructions settings tokens)
            ((entryBody? settings.entryLabel tokens).getD []) ∧
          ∀ expectation token,
            syntactic = .expected expectation (some token) →
            token.kind ≠ .label := by
  have concerns {tokens part : List Token} {symbols : SymbolTable}
      {base : UInt32} {error : SyntacticError}
      (tokenized : Token.ofSource instructions source = .ok tokens)
      (inside : part <:+: tokens)
      (failed : Instruction.ofTokens instructions symbols base part =
        .error error) : error.Concerns instructions symbols part :=
    Instruction.concerns_of_ofTokens (fun token member =>
      Token.isNormal_of_ofSource tokenized (inside.subset member)) failed
  constructor
  · intro tokens tokenized part inside symbols base
    refine ⟨fun text failed => ?_, fun token isRegister failed => ?_⟩
    · cases concerns tokenized inside failed
    · cases concerns tokenized inside failed with
      | wrongKind expectation token member different =>
          exact different isRegister
  · intro settings error failed
    rcases Assembly.ofSource_eq_error_iff.mp failed with
      lexical | ⟨tokens, syntactic, tokenized, refused, rfl⟩
    · exact .inl lexical
    have reason := concerns tokenized (isInfix_entryBody? ..) refused
    refine .inr ⟨tokens, syntactic, tokenized, rfl, reason, ?_⟩
    rintro expectation token rfl
    cases reason with
    | wrongKind expectation token member different =>
        exact kind_ne_label_of_mem_entryBody? member

/-! ### A missing parenthesis -/

namespace MissingParenthesis

def source : String :=
  "main: lw $t0, -0x80000000 main"

def tokens : List Token :=
  [⟨.label, "main"⟩, ⟨.identifier, "lw"⟩, ⟨.register, "t0"⟩, ⟨.comma, ","⟩,
    ⟨.number, "-2147483648"⟩, ⟨.identifier, "main"⟩]

def error : SyntacticError :=
  .expected .openParen (some ⟨.identifier, "main"⟩)

theorem tokenized : Token.ofSource Mips32.instructionSet source = .ok tokens := by
  decide +kernel

theorem failed :
    Assembly.ofSource Mips32.instructionSet {} source =
      .error (.syntactic error) := by
  decide +kernel

/-- The number is the least one that a text may hold, and no error. -/
theorem concerns_error :
    error.Concerns Mips32.instructionSet (.ofList [("main", 0x00400000)])
        (tokens.drop 1) ∧
      ∀ text, Instruction.ofTokens Mips32.instructionSet .empty 0
        (tokens.drop 1) ≠ .error (.invalidInteger text) := by
  obtain ⟨parts, reasons⟩ :=
    Assembly.concerns_of_ofSource Mips32.instructionSet source
  refine ⟨?_, (parts tokens tokenized _ (List.drop_suffix 1 tokens).isInfix
    .empty 0).1⟩
  rcases reasons {} _ failed with
    ⟨lexical, -, ⟨⟩⟩ | ⟨found, syntactic, foundIn, errorEq, reason, -⟩
  obtain rfl := Except.ok.inj (foundIn.symm.trans tokenized)
  obtain rfl := AssemblyError.syntactic.inj errorEq
  have symbolsEq : SymbolTable.ofTokens Mips32.instructionSet {} tokens =
      .ofList [("main", 0x00400000)] := by
    decide +kernel
  have bodyEq : (entryBody? ({} : Settings).entryLabel tokens).getD [] =
      tokens.drop 1 := by
    decide +kernel
  rwa [symbolsEq, bodyEq] at reason

end MissingParenthesis

end MipsAssembler
