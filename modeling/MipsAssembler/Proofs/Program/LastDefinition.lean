import MipsAssembler.Proofs.Program.LabelScope
import MipsAssembler.Proofs.Program.SymbolTable

/-!
# The last definition of a label

The symbol table of any token list, whether or not a text is read as it, binds
the folded names of the labels in scope.  A name is bound to the address of the
word that follows as many instructions as stand ahead of its last definition.
-/

namespace MipsAssembler

variable {instructions : InstructionSet}

/-! ## The scope of labels -/

/-- Labels are bound among the given tokens of a list. -/
inductive LabelScope.Covers : LabelScope → List Token → List Token → Prop
  | everywhere (tokens : List Token) : Covers .everywhere tokens tokens
  | afterText (before rest : List Token)
      (first : ⟨.directive, "text"⟩ ∉ before) :
      Covers .afterText (before ++ ⟨.directive, "text"⟩ :: rest) rest
  /-- Without the directive, all tokens are in scope. -/
  | noText (tokens : List Token) (absent : ⟨.directive, "text"⟩ ∉ tokens) :
      Covers .afterText tokens tokens

theorem LabelScope.covers_tokens (scope : LabelScope) (tokens : List Token) :
    scope.Covers tokens (scope.tokens tokens) := by
  cases scope with
  | everywhere => exact .everywhere tokens
  | afterText =>
      by_cases member : (⟨.directive, "text"⟩ : Token) ∈ tokens
      · obtain ⟨before, rest, rfl, first⟩ := List.eq_append_cons_of_mem member
        rw [tokens_afterText_append first]
        exact .afterText before rest first
      · rw [tokens_afterText_of_notMem member]
        exact .noText tokens member

/-! ## Last definitions -/

/-- The name is defined among the tokens, and as many instructions stand ahead
of its last definition. -/
def InstructionSet.LastDefinedAfter (instructions : InstructionSet)
    (tokens : List Token) (name : String) (count : Nat) : Prop :=
  ∃ before label after, tokens = before ++ label :: after ∧
    label.Defines name ∧ (∀ later ∈ after, ¬ later.Defines name) ∧
    instructions.mnemonicCount before = count

theorem exists_lastDefinedAfter {tokens : List Token} {name : String}
    (defined : ∃ token ∈ tokens, token.Defines name) :
    ∃ count, instructions.LastDefinedAfter tokens name count := by
  obtain ⟨before, label, after, split, defines, last⟩ :=
    exists_last_of_exists_mem defined
  exact ⟨_, before, label, after, split, defines, last, rfl⟩

/-- A walk leaves a name at the address of the word that its last definition
stands ahead of. -/
theorem LabelBinding.find?_walk_eq_some_iff {base : UInt32}
    {tokens : List Token} {name : String} {address : UInt32} :
    (walk instructions base tokens).symbols.find? name = some address ↔
      ∃ count, instructions.LastDefinedAfter tokens name count ∧
        wordAddress base count = address := by
  have bound {count : Nat}
      (lastDefined : instructions.LastDefinedAfter tokens name count) :
      (walk instructions base tokens).symbols.find? name =
        some (wordAddress base count) := by
    obtain ⟨before, label, after, rfl, defines, last, rfl⟩ := lastDefined
    exact find?_walk_of_defines defines last
  constructor
  · intro found
    have isSome : ((walk instructions base tokens).symbols.find?
        name).isSome := by
      rw [found]
      rfl
    obtain ⟨count, lastDefined⟩ := @exists_lastDefinedAfter instructions _ _
      (isSome_find?_walk_iff.mp isSome)
    rw [bound lastDefined] at found
    exact ⟨count, lastDefined, Option.some.inj found⟩
  · rintro ⟨count, lastDefined, rfl⟩
    exact bound lastDefined

/-- The names that are bound are the folded texts of the labels in scope, and
each of them is bound to the address of the word that its last definition in
scope stands ahead of. -/
theorem SymbolTable.ofTokens_binds_lastDefinitions
    (instructions : InstructionSet) (settings : Settings)
    (tokens : List Token) :
    let table := SymbolTable.ofTokens instructions settings tokens
    let scope := settings.labelScope.tokens tokens
    settings.labelScope.Covers tokens scope ∧
      (∀ name, name ∈ table.entries.map Prod.fst ↔
        ∃ label ∈ scope, label.kind = .label ∧
          Text.foldCase label.text = name) ∧
      ∀ name address, table.find? name = some address ↔
        ∃ count, instructions.LastDefinedAfter scope name count ∧
          address.toNat =
            (settings.baseAddress.toNat + 4 * count) % 0x100000000 := by
  intro table scope
  refine ⟨settings.labelScope.covers_tokens tokens, fun name => ?_,
    fun name address => ?_⟩
  · have bound : name ∈ table.entries.map Prod.fst ↔
        Text.foldCase name = name ∧ (table.find? name).isSome := by
      simp [Option.isSome_iff_exists, mem_entries_iff]
    have defined : (table.find? name).isSome ↔
        ∃ label ∈ scope, label.Defines name :=
      LabelBinding.isSome_find?_walk_iff
    rw [bound, defined]
    constructor
    · rintro ⟨folded, label, inScope, isLabel, sameName⟩
      exact ⟨label, inScope, isLabel, sameName.trans folded⟩
    · rintro ⟨label, inScope, isLabel, rfl⟩
      exact ⟨Text.foldCase_foldCase _, label, inScope, isLabel,
        (Text.foldCase_foldCase _).symm⟩
  · have found : table.find? name = some address ↔
        ∃ count, instructions.LastDefinedAfter scope name count ∧
          wordAddress settings.baseAddress count = address :=
      LabelBinding.find?_walk_eq_some_iff
    simp only [found, ← UInt32.toNat_inj, toNat_wordAddress, eq_comm]

/-- Two spellings of one name, and a base address at the top. -/
example : (SymbolTable.ofTokens Mips32.instructionSet
    { baseAddress := 0xFFFFFFFC, labelScope := .afterText }
    [⟨.label, "Loop"⟩, ⟨.identifier, "add"⟩, ⟨.label, "LOOP"⟩,
      ⟨.identifier, "loop"⟩]).entries = [("loop", 0)] := by
  decide +kernel

end MipsAssembler
