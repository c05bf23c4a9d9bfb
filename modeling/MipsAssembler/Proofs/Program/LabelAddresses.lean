import Mathlib.Data.List.Induction
import MipsAssembler.Program.LabelBinding
import MipsAssembler.Proofs.Program.WordAddress

/-!
# Addresses of labels

The walk that binds labels keeps one address, which moves on at every
identifier that names a mnemonic.  A name is therefore bound to the address
that lies as many words after the base as mnemonics stand before the last
definition of the name.
-/

namespace MipsAssembler

/-- The walk takes the token for an instruction. -/
def InstructionSet.counts (instructions : InstructionSet) (token : Token) :
    Bool :=
  token.kind = .identifier && instructions.isMnemonic token.text

/-- The number of tokens that the walk takes for instructions. -/
def InstructionSet.mnemonicCount (instructions : InstructionSet)
    (tokens : List Token) : Nat :=
  tokens.countP instructions.counts

/-- The token is a definition of the name. -/
def Token.Defines (token : Token) (name : String) : Prop :=
  token.kind = .label ∧ Text.foldCase token.text = Text.foldCase name

instance (token : Token) (name : String) : Decidable (token.Defines name) :=
  inferInstanceAs (Decidable (_ ∧ _))

namespace LabelBinding

variable {instructions : InstructionSet}

theorem address_step (binding : LabelBinding) (token : Token) :
    (step instructions binding token).address =
      if instructions.counts token then nextWord binding.address
      else binding.address := by
  obtain ⟨kind, text⟩ := token
  cases kind with
  | identifier => cases named : instructions.isMnemonic text <;>
      simp [step, InstructionSet.counts, named]
  | _ => simp [step, InstructionSet.counts]

theorem address_foldl_step (binding : LabelBinding) (tokens : List Token) :
    (tokens.foldl (step instructions) binding).address =
      wordAddress binding.address (instructions.mnemonicCount tokens) := by
  induction tokens generalizing binding with
  | nil => exact (wordAddress_zero _).symm
  | cons token tokens ih =>
      rw [List.foldl_cons, ih, address_step, InstructionSet.mnemonicCount,
        InstructionSet.mnemonicCount, List.countP_cons]
      split
      · exact wordAddress_nextWord ..
      · rfl

theorem address_walk (base : UInt32) (tokens : List Token) :
    (walk instructions base tokens).address =
      wordAddress base (instructions.mnemonicCount tokens) :=
  address_foldl_step ..

theorem find?_step (binding : LabelBinding) (token : Token) (name : String) :
    (step instructions binding token).symbols.find? name =
      if token.Defines name then some binding.address
      else binding.symbols.find? name := by
  obtain ⟨kind, text⟩ := token
  cases kind with
  | label =>
      simp [step, SymbolTable.find?_define, Token.Defines,
        eq_comm (a := Text.foldCase name)]
  | identifier => cases named : instructions.isMnemonic text <;>
      simp [step, Token.Defines, named]
  | _ => simp [step, Token.Defines]

/-- Tokens that do not define a name leave its binding alone. -/
theorem find?_foldl_step_of_not_defines {binding : LabelBinding}
    {tokens : List Token} {name : String}
    (absent : ∀ token ∈ tokens, ¬ token.Defines name) :
    (tokens.foldl (step instructions) binding).symbols.find? name =
      binding.symbols.find? name := by
  induction tokens generalizing binding with
  | nil => rfl
  | cons token tokens ih =>
      rw [List.foldl_cons,
        ih (fun later member => absent later (.tail _ member)), find?_step,
        if_neg (absent token List.mem_cons_self)]

/-- A name that no token defines is not bound. -/
theorem find?_walk_of_not_defines {base : UInt32} {tokens : List Token}
    {name : String} (absent : ∀ token ∈ tokens, ¬ token.Defines name) :
    (walk instructions base tokens).symbols.find? name = none :=
  find?_foldl_step_of_not_defines absent

/-- A name is bound to the address reached at its last definition. -/
theorem find?_walk_of_defines {base : UInt32} {before after : List Token}
    {token : Token} {name : String} (defines : token.Defines name)
    (last : ∀ later ∈ after, ¬ later.Defines name) :
    (walk instructions base (before ++ token :: after)).symbols.find? name =
      some (wordAddress base (instructions.mnemonicCount before)) := by
  rw [walk, List.foldl_append, List.foldl_cons,
    find?_foldl_step_of_not_defines last, find?_step, if_pos defines,
    ← address_walk]
  rfl

/-- The names that are bound are those that some token defines. -/
theorem isSome_find?_walk_iff {base : UInt32} {tokens : List Token}
    {name : String} :
    ((walk instructions base tokens).symbols.find? name).isSome ↔
      ∃ token ∈ tokens, token.Defines name := by
  induction tokens using List.reverseRecOn with
  | nil => simp [walk, start]
  | append_singleton tokens token ih =>
      rw [walk, List.foldl_append, List.foldl_cons, List.foldl_nil, find?_step]
      split
      · next defines =>
        simp only [Option.isSome_some, true_iff]
        exact ⟨token, List.mem_append_right _ List.mem_cons_self, defines⟩
      · next other =>
        rw [← walk, ih]
        simp [or_and_right, exists_or, other]

/-- A walk that goes on from earlier bindings replaces those whose names it
meets again, and keeps the others. -/
theorem find?_foldl_step (binding : LabelBinding) (tokens : List Token)
    (name : String) :
    (tokens.foldl (step instructions) binding).symbols.find? name =
      ((walk instructions binding.address tokens).symbols.find? name).or
        (binding.symbols.find? name) := by
  induction tokens using List.reverseRecOn with
  | nil => rfl
  | append_singleton tokens token ih =>
      have sameAddress : (tokens.foldl (step instructions) binding).address =
          (walk instructions binding.address tokens).address := by
        rw [address_foldl_step, address_walk]
      rw [walk, List.foldl_append, List.foldl_append, List.foldl_cons,
        List.foldl_cons, List.foldl_nil, List.foldl_nil, find?_step, find?_step,
        ← walk, ih, sameAddress]
      by_cases defines : token.Defines name
      · simp [defines]
      · simp [defines]

theorem find?_walk_append (base : UInt32) (before after : List Token)
    (name : String) :
    (walk instructions base (before ++ after)).symbols.find? name =
      ((walk instructions (wordAddress base
          (instructions.mnemonicCount before)) after).symbols.find? name).or
        ((walk instructions base before).symbols.find? name) := by
  rw [walk, List.foldl_append, find?_foldl_step, ← walk, address_walk]

/-- Every name is bound to the address of some word. -/
theorem exists_wordAddress_of_find?_walk {base : UInt32} {tokens : List Token}
    {name : String} {address : UInt32}
    (found : (walk instructions base tokens).symbols.find? name =
      some address) :
    ∃ position, address = wordAddress base position := by
  induction tokens using List.reverseRecOn with
  | nil => cases found
  | append_singleton tokens token ih =>
      rw [walk, List.foldl_append, List.foldl_cons, List.foldl_nil,
        find?_step] at found
      split at found
      · refine ⟨instructions.mnemonicCount tokens, ?_⟩
        rw [← Option.some.inj found]
        exact address_walk base tokens
      · exact ih found

end LabelBinding

end MipsAssembler
