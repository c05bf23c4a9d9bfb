import MipsAssembler.Program.Assembly
import MipsAssembler.Proofs.Program.PhraseGrammar

/-!
# The stages of an assembly run

A successful run reads the tokens, binds the labels among them, and encodes
the tokens that follow the first definition of the entry label.
-/

namespace MipsAssembler

/-- The parts of a successful assembly run. -/
theorem assemble_eq_ok_iff {settings : Settings} {source : String}
    {assembly : Assembly} :
    assemble settings source = .ok assembly ↔
      ∃ tokens, Token.ofSource Mips32.instructionSet source = .ok tokens ∧
        assembly.baseAddress = settings.baseAddress ∧
        assembly.symbols =
          SymbolTable.ofTokens Mips32.instructionSet settings tokens ∧
        Instruction.ofTokens Mips32.instructionSet assembly.symbols
          settings.baseAddress
          ((entryBody? settings.entryLabel tokens).getD []) =
            .ok assembly.instructions := by
  unfold assemble Assembly.ofSource
  cases Token.ofSource Mips32.instructionSet source with
  | error error => simp
  | ok tokens =>
      obtain ⟨baseAddress, symbols, encoded⟩ := assembly
      simp only [Assembly.ofTokens, Except.ok.injEq, exists_eq_left']
      constructor
      · intro assembled
        split at assembled
        · cases assembled
        · next ran =>
          split at ran <;> cases ran
          cases assembled
          exact ⟨rfl, rfl, ‹_›⟩
      · rintro ⟨rfl, rfl, ran⟩
        rw [ran]

/-- The ways in which an assembly run fails. -/
theorem Assembly.ofSource_eq_error_iff {instructions : InstructionSet}
    {settings : Settings} {source : String} {error : AssemblyError} :
    Assembly.ofSource instructions settings source = .error error ↔
      (∃ lexical, Token.ofSource instructions source = .error lexical ∧
          error = .lexical lexical) ∨
        ∃ tokens syntactic,
          Token.ofSource instructions source = .ok tokens ∧
          Instruction.ofTokens instructions
            (SymbolTable.ofTokens instructions settings tokens)
            settings.baseAddress
            ((entryBody? settings.entryLabel tokens).getD []) =
              .error syntactic ∧
          error = .syntactic syntactic := by
  unfold Assembly.ofSource
  cases Token.ofSource instructions source with
  | error lexical => simp [eq_comm]
  | ok tokens =>
      simp only [Assembly.ofTokens]
      cases ran : Instruction.ofTokens instructions
        (SymbolTable.ofTokens instructions settings tokens)
        settings.baseAddress
        ((entryBody? settings.entryLabel tokens).getD []) <;>
        simp [ran, eq_comm]

theorem assemble_eq_error_iff {settings : Settings} {source : String}
    {error : AssemblyError} :
    assemble settings source = .error error ↔
      (∃ lexical, Token.ofSource Mips32.instructionSet source =
          .error lexical ∧ error = .lexical lexical) ∨
        ∃ tokens syntactic,
          Token.ofSource Mips32.instructionSet source = .ok tokens ∧
          Instruction.ofTokens Mips32.instructionSet
            (SymbolTable.ofTokens Mips32.instructionSet settings tokens)
            settings.baseAddress
            ((entryBody? settings.entryLabel tokens).getD []) =
              .error syntactic ∧
          error = .syntactic syntactic :=
  Assembly.ofSource_eq_error_iff

/-- The code of a successful run is a sequence of phrases, and the result
holds what they denote. -/
theorem assemble_eq_ok_iff_phrases {settings : Settings} {source : String}
    {assembly : Assembly} :
    assemble settings source = .ok assembly ↔
      ∃ (tokens : List Token) (phrases : List Phrase),
        Token.ofSource Mips32.instructionSet source = .ok tokens ∧
        assembly.baseAddress = settings.baseAddress ∧
        assembly.symbols =
          SymbolTable.ofTokens Mips32.instructionSet settings tokens ∧
        (entryBody? settings.entryLabel tokens).getD [] =
          phrases.flatMap Phrase.tokens ∧
        Phrase.instructions? Mips32.instructionSet assembly.symbols
            settings.baseAddress phrases =
          assembly.instructions.map some := by
  rw [assemble_eq_ok_iff]
  constructor
  · rintro ⟨tokens, tokenized, baseEq, symbolsEq, ran⟩
    obtain ⟨phrases, bodyEq, denote⟩ := Instruction.ofTokens_eq_ok_iff.mp ran
    exact ⟨tokens, phrases, tokenized, baseEq, symbolsEq, bodyEq, denote⟩
  · rintro ⟨tokens, phrases, tokenized, baseEq, symbolsEq, bodyEq, denote⟩
    exact ⟨tokens, tokenized, baseEq, symbolsEq,
      Instruction.ofTokens_eq_ok_iff.mpr ⟨phrases, bodyEq, denote⟩⟩

/-! ## The code of the entry label -/

/-- The token that defines the entry label. -/
def Settings.entryToken (settings : Settings) : Token :=
  ⟨.label, Text.foldCase settings.entryLabel⟩

theorem entryBody?_append {settings : Settings} {before rest : List Token}
    (first : settings.entryToken ∉ before) :
    entryBody? settings.entryLabel (before ++ settings.entryToken :: rest) =
      some (rest.takeWhile (·.kind ≠ .label)) := by
  have skips : ∀ token ∈ before,
      decide (token ≠ ⟨.label, Text.foldCase settings.entryLabel⟩) = true :=
    fun token member => decide_eq_true fun equal => first (by
      rwa [Settings.entryToken, ← equal])
  rw [entryBody?, List.dropWhile_append_of_pos skips]
  simp [Settings.entryToken]

theorem entryToken_mem_of_entryBody? {settings : Settings}
    {tokens body : List Token}
    (found : entryBody? settings.entryLabel tokens = some body) :
    settings.entryToken ∈ tokens := by
  unfold entryBody? at found
  split at found
  · cases found
  · next first rest reached =>
    have stops := List.head?_dropWhile_not
      (· ≠ (⟨.label, Text.foldCase settings.entryLabel⟩ : Token)) tokens
    rw [reached] at stops
    obtain rfl : first = settings.entryToken := by
      simpa [Settings.entryToken] using stops
    apply (List.dropWhile_suffix _).subset
    rw [reached]
    exact List.mem_cons_self

/-- The encoded tokens are consecutive tokens of the list. -/
theorem isInfix_entryBody? (entryLabel : String) (tokens : List Token) :
    (entryBody? entryLabel tokens).getD [] <:+: tokens := by
  unfold entryBody?
  split
  · exact List.nil_infix
  · next entryToken rest found =>
    have fromEntry := List.dropWhile_suffix
      (· ≠ (⟨.label, Text.foldCase entryLabel⟩ : Token)) (l := tokens)
    rw [found] at fromEntry
    have taken := List.takeWhile_prefix (·.kind ≠ TokenKind.label) (l := rest)
    exact taken.isInfix.trans
      ((List.suffix_cons entryToken rest).trans fromEntry).isInfix

theorem kind_ne_label_of_mem_entryBody? {entryLabel : String}
    {tokens : List Token} {token : Token}
    (member : token ∈ (entryBody? entryLabel tokens).getD []) :
    token.kind ≠ .label := by
  unfold entryBody? at member
  split at member
  · cases member
  · exact of_decide_eq_true (List.all_eq_true.mp List.all_takeWhile token member)

/-- The first definition of the entry label is among the tokens whose labels
are bound. -/
structure EntryInScope (settings : Settings) (tokens : List Token) where
  /-- The tokens whose labels are not bound. -/
  skipped : List Token
  /-- The tokens in scope ahead of the entry label. -/
  before : List Token
  rest : List Token
  tokensEq : tokens = skipped ++ (before ++ settings.entryToken :: rest)
  scopeEq : settings.labelScope.tokens tokens =
    before ++ settings.entryToken :: rest
  first : settings.entryToken ∉ skipped ++ before

namespace EntryInScope

variable {settings : Settings} {tokens : List Token}

/-- The entry label is in scope if it occurs there, and nowhere ahead. -/
theorem nonempty_iff :
    Nonempty (EntryInScope settings tokens) ↔
      ∃ skipped, tokens = skipped ++ settings.labelScope.tokens tokens ∧
        settings.entryToken ∉ skipped ∧
        settings.entryToken ∈ settings.labelScope.tokens tokens := by
  constructor
  · rintro ⟨entry⟩
    refine ⟨entry.skipped, ?_,
      fun member => entry.first (List.mem_append_left _ member), ?_⟩
    · rw [entry.scopeEq]
      exact entry.tokensEq
    · rw [entry.scopeEq]
      exact List.mem_append_right _ List.mem_cons_self
  · rintro ⟨skipped, split, notSkipped, member⟩
    obtain ⟨before, rest, scopeEq, notBefore⟩ := List.eq_append_cons_of_mem member
    rw [scopeEq] at split
    refine ⟨skipped, before, rest, split, scopeEq, fun found => ?_⟩
    exact (List.mem_append.mp found).elim notSkipped notBefore

/-- The tokens that are encoded. -/
def body (entry : EntryInScope settings tokens) : List Token :=
  entry.rest.takeWhile (·.kind ≠ .label)

theorem entryBody?_eq (entry : EntryInScope settings tokens) :
    entryBody? settings.entryLabel tokens = some entry.body := by
  have found : entryBody? settings.entryLabel
      (entry.skipped ++ entry.before ++ settings.entryToken :: entry.rest) =
        some entry.body := entryBody?_append entry.first
  rwa [List.append_assoc, ← entry.tokensEq] at found

end EntryInScope

end MipsAssembler
