import MipsAssembler.Proofs.Program.ControlTransfer
import MipsAssembler.Proofs.Program.SyntacticError

/-!
# The address of the entry label

The code that is encoded follows the first definition of the entry label in
the whole source, while its name is bound at the last definition in scope.
This file tells when the name is bound and when the two definitions give it
the same address.
-/

namespace MipsAssembler

section

variable {instructions : InstructionSet} {symbols : SymbolTable}
  {settings : Settings} {source : String} {tokens : List Token}

/-! ## Definitions of the entry label -/

theorem LabelScope.isSuffix_tokens (scope : LabelScope) (tokens : List Token) :
    scope.tokens tokens <:+ tokens := by
  cases scope with
  | everywhere => exact List.suffix_rfl
  | afterText =>
      simp only [LabelScope.tokens]
      split
      · exact List.suffix_rfl
      · next directive rest found =>
        have fromText := List.dropWhile_suffix
          (· ≠ (⟨.directive, "text"⟩ : Token)) (l := tokens)
        rw [found] at fromText
        exact (List.suffix_cons directive rest).trans fromText

theorem Token.IsNormal.defines_entryLabel_iff {token : Token}
    (normal : token.IsNormal instructions) :
    token.Defines settings.entryLabel ↔ token = settings.entryToken := by
  obtain ⟨kind, text⟩ := token
  constructor
  · rintro ⟨isLabel, sameName⟩
    obtain rfl : kind = .label := isLabel
    have isWord : Text.isLowerWord text = true := normal
    have folded := Text.foldCase_of_isLowerName
      (Bool.and_eq_true_iff.mp isWord).1
    rw [Settings.entryToken, ← sameName, folded]
  · intro isEntry
    rw [isEntry]
    exact ⟨rfl, Text.foldCase_foldCase _⟩

/-- In a source text only the entry token defines the entry label. -/
theorem defines_entryLabel_iff_of_mem
    (tokenized : Token.ofSource instructions source = .ok tokens)
    {token : Token} (inScope : token ∈ settings.labelScope.tokens tokens) :
    token.Defines settings.entryLabel ↔ token = settings.entryToken :=
  (Token.isNormal_of_ofSource tokenized
    ((settings.labelScope.isSuffix_tokens tokens).subset
      inScope)).defines_entryLabel_iff

theorem isSome_find?_entryLabel_iff
    (tokenized : Token.ofSource instructions source = .ok tokens) :
    ((SymbolTable.ofTokens instructions settings tokens).find?
        settings.entryLabel).isSome ↔
      settings.entryToken ∈ settings.labelScope.tokens tokens := by
  rw [SymbolTable.ofTokens, LabelBinding.isSome_find?_walk_iff]
  constructor
  · rintro ⟨token, inScope, defines⟩
    obtain rfl := (defines_entryLabel_iff_of_mem tokenized inScope).mp defines
    exact inScope
  · intro inScope
    exact ⟨_, inScope,
      (defines_entryLabel_iff_of_mem tokenized inScope).mpr rfl⟩

/-- The entry label is bound to the address reached at its last definition. -/
theorem find?_entryLabel_of_last
    (tokenized : Token.ofSource instructions source = .ok tokens)
    {before after : List Token}
    (split : settings.labelScope.tokens tokens =
      before ++ settings.entryToken :: after)
    (last : settings.entryToken ∉ after) :
    (SymbolTable.ofTokens instructions settings tokens).find?
        settings.entryLabel =
      some (LabelBinding.walk instructions settings.baseAddress
        before).address := by
  rw [SymbolTable.ofTokens, split, LabelBinding.address_walk]
  apply LabelBinding.find?_walk_of_defines
  · exact ⟨rfl, Text.foldCase_foldCase _⟩
  · intro later inAfter defines
    have inScope : later ∈ settings.labelScope.tokens tokens := by
      rw [split]
      exact List.mem_append_right _ (List.mem_cons_of_mem _ inAfter)
    obtain rfl := (defines_entryLabel_iff_of_mem tokenized inScope).mp defines
    exact last inAfter

/-! ## Jumps to a bound label -/

theorem SymbolTable.find?_eq_of_foldCase_eq (table : SymbolTable)
    {first second : String}
    (same : Text.foldCase first = Text.foldCase second) :
    table.find? first = table.find? second := by
  rw [find?, find?, same]

theorem Phrase.instruction?_of_jump {phrase : Phrase} {label : String}
    {address : UInt32} (fits : phrase.FitsTable instructions)
    (jumps : phrase.operands.jumpTarget? = some label)
    (bound : symbols.find? label = some address) :
    ∃ opcode, ∀ here, phrase.instruction? instructions symbols here =
      some (.jump opcode address) := by
  have isJump : phrase.operands = .jump label := by
    cases operandsEq : phrase.operands with
    | jump target =>
        rw [operandsEq, OperandList.jumpTarget?, Option.some.injEq] at jumps
        rw [jumps]
    | _ => simp [operandsEq, OperandList.jumpTarget?] at jumps
  have valid : phrase.IsValid instructions symbols := by
    refine ⟨fits, ?_, ?_, ?_⟩ <;> rw [isJump]
    · exact List.forall_mem_nil _
    · exact List.forall_mem_nil _
    · intro name member
      obtain rfl := List.mem_singleton.mp member
      rw [bound]
      rfl
  obtain ⟨instruction, denotes⟩ := Option.isSome_iff_exists.mp
    ((@isSome_instruction?_iff instructions symbols 0 phrase).mpr valid)
  obtain ⟨opcode, everywhere⟩ := instruction?_of_jumpTarget? denotes jumps
  exact ⟨opcode, fun here => by rw [everywhere, bound, Option.map_some]⟩

/-- Only a label that is not bound is reported as undefined. -/
theorem Assembly.find?_eq_none_of_undefinedLabel {name : String}
    (tokenized : Token.ofSource instructions source = .ok tokens)
    (failed : Assembly.ofSource instructions settings source =
      .error (.syntactic (.undefinedLabel name))) :
    (SymbolTable.ofTokens instructions settings tokens).find? name = none := by
  rcases Assembly.ofSource_eq_error_iff.mp failed with
    ⟨lexical, -, ⟨⟩⟩ | ⟨found, syntactic, foundIn, refused, errorEq⟩
  obtain rfl := Except.ok.inj (foundIn.symm.trans tokenized)
  obtain rfl := AssemblyError.syntactic.inj errorEq
  rcases Instruction.refusedWith_of_ofTokens refused with
    ⟨token, -, ⟨⟩⟩ | ⟨expectation, ⟨⟩⟩
  assumption

/-! ## The first and the last definition -/

/-- The entry label is bound if it is defined in scope, to the address reached
at its last definition there.  If the code that is encoded stands in scope,
then the label is bound and no jump to it fails; it is bound to the address
reached at this code exactly when the mnemonics up to the last definition make
up whole rounds of the address space, so in particular when no definition
follows. -/
theorem find?_entryLabel {body : List Token}
    (tokenized : Token.ofSource instructions source = .ok tokens)
    (found : entryBody? settings.entryLabel tokens = some body) :
    let symbols := SymbolTable.ofTokens instructions settings tokens
    let scope := settings.labelScope.tokens tokens
    let addressAfter (before : List Token) :=
      (LabelBinding.walk instructions settings.baseAddress before).address
    ((symbols.find? settings.entryLabel).isSome ↔
        settings.entryToken ∈ scope) ∧
      (settings.labelScope = .everywhere → settings.entryToken ∈ scope) ∧
      (∀ before after, scope = before ++ settings.entryToken :: after →
        settings.entryToken ∉ after →
        symbols.find? settings.entryLabel = some (addressAfter before)) ∧
      ∀ entry : EntryInScope settings tokens,
        entry.body = body ∧
        (∀ before after, scope = before ++ settings.entryToken :: after →
          settings.entryToken ∉ after →
          (symbols.find? settings.entryLabel =
              some (addressAfter entry.before) ↔
            instructions.mnemonicCount before % 0x40000000 =
              instructions.mnemonicCount entry.before % 0x40000000)) ∧
        (settings.entryToken ∉ entry.rest →
          symbols.find? settings.entryLabel =
            some (addressAfter entry.before)) ∧
        ∀ name, Text.foldCase name = Text.foldCase settings.entryLabel →
          (∀ phrase : Phrase, phrase.FitsTable instructions →
            phrase.operands.jumpTarget? = some name →
            ∃ opcode address,
              symbols.find? settings.entryLabel = some address ∧
              ∀ here, phrase.instruction? instructions symbols here =
                some (.jump opcode address)) ∧
          Assembly.ofSource instructions settings source ≠
            .error (.syntactic (.undefinedLabel name)) := by
  intro symbols scope addressAfter
  have boundIff : (symbols.find? settings.entryLabel).isSome ↔
      settings.entryToken ∈ scope := isSome_find?_entryLabel_iff tokenized
  refine ⟨boundIff, ?_, fun before after => find?_entryLabel_of_last tokenized, ?_⟩
  · intro everywhere
    have scopeEq : scope = tokens := by
      simp only [scope, everywhere, LabelScope.tokens]
    rw [scopeEq]
    exact entryToken_mem_of_entryBody? found
  intro entry
  -- The code stands in scope, and so does the entry token ahead of it.
  have inScope : settings.entryToken ∈ scope := by
    simp only [scope, entry.scopeEq]
    exact List.mem_append_right _ List.mem_cons_self
  obtain ⟨address, bound⟩ := Option.isSome_iff_exists.mp (boundIff.mpr inScope)
  refine ⟨Option.some.inj (entry.entryBody?_eq.symm.trans found), ?_,
    find?_entryLabel_of_last tokenized entry.scopeEq, ?_⟩
  · intro before after split last
    simp only [addressAfter, LabelBinding.address_walk]
    rw [find?_entryLabel_of_last tokenized split last, Option.some.injEq,
      LabelBinding.address_walk, wordAddress_eq_iff]
  · intro name sameName
    have nameBound : symbols.find? name = some address :=
      (symbols.find?_eq_of_foldCase_eq sameName).trans bound
    constructor
    · intro phrase fits jumps
      obtain ⟨opcode, denotes⟩ :=
        Phrase.instruction?_of_jump fits jumps nameBound
      exact ⟨opcode, address, bound, denotes⟩
    · intro failed
      have unbound := Assembly.find?_eq_none_of_undefinedLabel tokenized failed
      rw [nameBound] at unbound
      cases unbound

end

/-! ### An entry label with two definitions -/

namespace EntryRedefined

def source : String :=
  "main: j main\nmain:"

def jump : Phrase :=
  ⟨"j", .jump "main", _, .jump "main"⟩

def tokens : List Token :=
  [] ++ Settings.entryToken {} :: (jump.tokens ++ [Settings.entryToken {}])

def entry : EntryInScope {} tokens where
  skipped := []
  before := []
  rest := jump.tokens ++ [Settings.entryToken {}]
  tokensEq := rfl
  scopeEq := rfl
  first := nofun

theorem tokenized : Token.ofSource Mips32.instructionSet source = .ok tokens := by
  decide +kernel

theorem jump_fitsTable : jump.FitsTable Mips32.instructionSet := by
  decide +kernel

/-- The jump leads to the second definition, after the code that is encoded. -/
theorem find?_main :
    (SymbolTable.ofTokens Mips32.instructionSet {} tokens).find? "main" =
        some 0x00400004 ∧
      ∃ opcode, jump.instruction? Mips32.instructionSet
        (.ofTokens Mips32.instructionSet {} tokens) 0x00400000 =
          some (.jump opcode 0x00400004) := by
  obtain ⟨-, -, atLast, inScope⟩ := find?_entryLabel tokenized entry.entryBody?_eq
  have bound : (SymbolTable.ofTokens Mips32.instructionSet {} tokens).find?
      "main" = some 0x00400004 :=
    (atLast (Settings.entryToken {} :: jump.tokens) [] rfl nofun).trans
      (by decide +kernel)
  obtain ⟨opcode, address, found, denotes⟩ :=
    ((inScope entry).2.2.2 "main" rfl).1 jump jump_fitsTable rfl
  obtain rfl := Option.some.inj (found.symm.trans bound)
  exact ⟨bound, opcode, denotes _⟩

def outOfScopeSource : String :=
  "main: j main\nend: .text"

def outOfScope : Settings :=
  { labelScope := .afterText }

def outOfScopeTokens : List Token :=
  Settings.entryToken {} :: jump.tokens ++
    [⟨.label, "end"⟩, ⟨.directive, "text"⟩]

/-- The entry label is not always bound, and if it is, then not always to the
address reached at the code that is encoded. -/
theorem not_forall_find?_entryLabel :
    (¬ ∀ (settings : Settings) (source : String) (tokens body : List Token),
        Token.ofSource Mips32.instructionSet source = .ok tokens →
        entryBody? settings.entryLabel tokens = some body →
        ((SymbolTable.ofTokens Mips32.instructionSet settings tokens).find?
          settings.entryLabel).isSome) ∧
      ¬ ∀ (settings : Settings) (source : String) (tokens : List Token),
        Token.ofSource Mips32.instructionSet source = .ok tokens →
        ∀ entry : EntryInScope settings tokens,
          (SymbolTable.ofTokens Mips32.instructionSet settings tokens).find?
              settings.entryLabel =
            some (LabelBinding.walk Mips32.instructionSet settings.baseAddress
              entry.before).address := by
  constructor
  · intro law
    have bound := law outOfScope outOfScopeSource outOfScopeTokens jump.tokens
      (by decide +kernel) (by decide +kernel)
    exact absurd bound (by decide +kernel)
  · intro law
    exact absurd (law {} source tokens tokenized entry) (by decide +kernel)

end EntryRedefined

end MipsAssembler
