import MipsAssembler.Proofs.Source.Layout

/-!
# Canonical layouts

A token whose text is in the form that reading gives it can be written with
this text.  A list of such tokens has a layout with a blank after each of
them.
-/

namespace MipsAssembler

open Source

/-! ## Lower-case names -/

namespace Text

def isLowerNameCharacter (character : Char) : Bool :=
  character.isLower || character.isDigit || character = '_'

/-- Lower-case letters, digits and underscores. -/
def isLowerName (name : String) : Bool :=
  name.toList.all isLowerNameCharacter

/-- Lower-case letters, digits and underscores, with a letter first. -/
def isLowerWord (name : String) : Bool :=
  isLowerName name && name.toList.head?.any Char.isLower

theorem toNat_of_isLower {character : Char} (lower : character.isLower = true) :
    0x61 ≤ character.toNat ∧ character.toNat ≤ 0x7A := by
  have bounds : (decide ('a'.val ≤ character.val) &&
      decide (character.val ≤ 'z'.val)) = true := lower
  simpa [UInt32.le_iff_toNat_le] using bounds

theorem isAlpha_of_isLower {character : Char}
    (lower : character.isLower = true) : character.isAlpha = true :=
  Bool.or_eq_true_iff.mpr (.inr lower)

theorem toLower_of_isLowerNameCharacter {character : Char}
    (isNameCharacter : isLowerNameCharacter character = true) :
    character.toLower = character := by
  have notUpper : ¬ (0x41 ≤ character.toNat ∧ character.toNat ≤ 0x5A) := by
    simp only [isLowerNameCharacter, Bool.or_eq_true, decide_eq_true_eq]
      at isNameCharacter
    rcases isNameCharacter with (lower | digit) | rfl
    · have bounds := toNat_of_isLower lower
      omega
    · have bounds : 0x30 ≤ character.toNat ∧ character.toNat ≤ 0x39 :=
        Char.isDigit_iff_toNat.mp digit
      omega
    · decide
  apply Char.toNat_inj.mp
  rw [toNat_toLower, if_neg notUpper]

theorem foldCase_of_isLowerName {name : String}
    (isName : isLowerName name = true) : foldCase name = name := by
  have unchanged : ∀ character ∈ name.toList, character.toLower = character :=
    fun character member => toLower_of_isLowerNameCharacter
      (List.all_eq_true.mp isName character member)
  rw [foldCase, List.map_congr_left unchanged, List.map_id',
    String.ofList_toList]

theorem isName_of_isLowerName {name : String}
    (isName : isLowerName name = true) : IsName name.toList := by
  intro character member
  have isNameCharacter := List.all_eq_true.mp isName character member
  simp only [isLowerNameCharacter, Bool.or_eq_true] at isNameCharacter
  simp only [isWordCharacter, Char.isAlphanum, Bool.or_eq_true]
  rcases isNameCharacter with (lower | digit) | underscore
  · exact .inl (.inl (isAlpha_of_isLower lower))
  · exact .inl (.inr digit)
  · exact .inr underscore

theorem isWord_of_isLowerWord {name : String}
    (isWord : isLowerWord name = true) : IsWord name.toList := by
  obtain ⟨isName, startsLower⟩ := Bool.and_eq_true_iff.mp isWord
  refine ⟨isName_of_isLowerName isName, ?_⟩
  cases nameEq : name.toList with
  | nil => simp [nameEq] at startsLower
  | cons first rest =>
      rw [nameEq] at startsLower
      exact ⟨first, rest, rfl, isAlpha_of_isLower startsLower⟩

end Text

/-! ## Canonical lexemes -/

variable {instructions : InstructionSet}

namespace Token

/-- The canonical lexeme of a token. -/
def characters (token : Token) : List Char :=
  match token.kind with
  | .register => '$' :: token.text.toList
  | .directive => '.' :: token.text.toList
  | .label => token.text.toList ++ [':']
  | .number | .identifier | .comma | .openParen | .closeParen =>
      token.text.toList

/-- The canonical lexeme of a token is one of its lexemes. -/
def IsCanonical (instructions : InstructionSet) (token : Token) : Prop :=
  Lexeme instructions token token.characters

theorem isCanonical_register {name : String}
    (isName : Text.isLowerName name = true)
    (known : (instructions.register? name).isSome) :
    IsCanonical instructions ⟨.register, name⟩ := by
  have folded := Text.foldCase_of_isLowerName isName
  have lexeme := @Lexeme.register instructions name.toList
    (Text.isName_of_isLowerName isName)
  rw [String.ofList_toList, folded] at lexeme
  exact lexeme known

theorem isCanonical_comma : IsCanonical instructions ⟨.comma, ","⟩ :=
  .comma

theorem isCanonical_openParen : IsCanonical instructions ⟨.openParen, "("⟩ :=
  .openParen

theorem isCanonical_closeParen : IsCanonical instructions ⟨.closeParen, ")"⟩ :=
  .closeParen

theorem isCanonical_number {number : Int} (fits : Literal.Fits number) :
    IsCanonical instructions ⟨.number, Decimal.write number⟩ := by
  have lexeme := @Lexeme.number instructions (.ofInt number)
    (Literal.ofInt_isWellFormed number)
  rw [Literal.value_ofInt, Literal.spelling_ofInt] at lexeme
  rw [IsCanonical, characters, Decimal.write, String.toList_ofList]
  exact lexeme fits

theorem isCanonical_identifier {name : String}
    (isWord : Text.isLowerWord name = true) :
    IsCanonical instructions ⟨.identifier, name⟩ := by
  have folded := Text.foldCase_of_isLowerName (Bool.and_eq_true_iff.mp isWord).1
  have lexeme := @Lexeme.identifier instructions name.toList
    (Text.isWord_of_isLowerWord isWord)
  rwa [String.ofList_toList, folded] at lexeme

theorem isCanonical_label {name : String}
    (isWord : Text.isLowerWord name = true) :
    IsCanonical instructions ⟨.label, name⟩ := by
  have folded := Text.foldCase_of_isLowerName (Bool.and_eq_true_iff.mp isWord).1
  have lexeme := @Lexeme.label instructions name.toList
    (Text.isWord_of_isLowerWord isWord)
  rwa [String.ofList_toList, folded] at lexeme

/-! ## Canonical layouts -/

/-- Canonical lexemes, each with a blank after it. -/
def separated (tokens : List Token) : List Char :=
  tokens.flatMap fun token => token.characters ++ [' ']

theorem layout_separated {tokens : List Token}
    (canonical : ∀ token ∈ tokens, token.IsCanonical instructions) :
    Layout instructions tokens (separated tokens) := by
  induction tokens with
  | nil => exact .nil
  | cons token tokens ih =>
      have layout := ih fun later member => canonical later (.tail _ member)
      rw [separated, List.flatMap_cons, List.append_assoc]
      exact .lexeme (canonical token List.mem_cons_self) (ends_blank _ _)
        (.blank rfl layout)

end Token

end MipsAssembler
