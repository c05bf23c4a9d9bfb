import MipsAssembler.Proofs.Source.CanonicalLayout
import MipsAssembler.Proofs.Source.Decomposition

/-!
# Texts of token lists

Reading normalises what it finds: names come out in lower case, and numbers in
canonical decimal form.  A token list has these forms exactly when some text
is read as it, and one such text has the canonical lexemes of the tokens with
a single blank between neighbours.
-/

namespace MipsAssembler

open Source

variable {instructions : InstructionSet}

/-! ## Folded names -/

namespace Text

theorem isLower_toLower {character : Char}
    (letter : character.isAlpha = true) : character.toLower.isLower = true := by
  have bounds := isAlpha_iff_toNat.mp letter
  have value := toNat_toLower character
  have lower : 0x61 ≤ character.toLower.toNat ∧
      character.toLower.toNat ≤ 0x7A := by
    split at value <;> omega
  exact Bool.and_eq_true_iff.mpr
    ⟨decide_eq_true lower.1, decide_eq_true lower.2⟩

theorem isLowerNameCharacter_toLower {character : Char}
    (isWord : isWordCharacter character = true) :
    isLowerNameCharacter character.toLower = true := by
  simp only [isWordCharacter, Char.isAlphanum, Bool.or_eq_true,
    decide_eq_true_eq] at isWord
  rcases isWord with (letter | digit) | rfl
  · simp [isLowerNameCharacter, isLower_toLower letter]
  · have bounds : 0x30 ≤ character.toNat ∧ character.toNat ≤ 0x39 :=
      Char.isDigit_iff_toNat.mp digit
    have value := toNat_toLower character
    rw [if_neg (by omega), Char.toNat_inj] at value
    simp [isLowerNameCharacter, value, digit]
  · decide

theorem isLowerName_foldCase {name : List Char} (isName : IsName name) :
    isLowerName (foldCase (String.ofList name)) = true := by
  rw [isLowerName, toList_foldCase, String.toList_ofList, List.all_map,
    List.all_eq_true]
  exact fun character member =>
    isLowerNameCharacter_toLower (isName character member)

theorem isLowerWord_foldCase {word : List Char} (isWord : IsWord word) :
    isLowerWord (foldCase (String.ofList word)) = true := by
  obtain ⟨isName, first, rest, rfl, letter⟩ := isWord
  rw [isLowerWord, isLowerName_foldCase isName, toList_foldCase,
    String.toList_ofList]
  simp [isLower_toLower letter]

end Text

/-! ## Tokens in normal form -/

namespace Token

/-- The text of the token is in the form that reading gives to a text of its
kind, and names of registers and directives are in the tables. -/
def IsNormal (instructions : InstructionSet) (token : Token) : Prop :=
  match token.kind with
  | .register =>
      Text.isLowerName token.text = true ∧
        (instructions.register? token.text).isSome
  | .directive =>
      Text.isLowerName token.text = true ∧
        instructions.isDirective token.text = true
  | .identifier | .label => Text.isLowerWord token.text = true
  | .number =>
      ∃ number, Literal.Fits number ∧ token.text = Decimal.write number
  | .comma => token.text = ","
  | .openParen => token.text = "("
  | .closeParen => token.text = ")"

theorem isNormal_of_lexeme {token : Token} {characters : List Char}
    (lexeme : Lexeme instructions token characters) :
    token.IsNormal instructions := by
  cases lexeme with
  | comma | openParen | closeParen => rfl
  | register name isName known =>
      exact ⟨Text.isLowerName_foldCase isName, known⟩
  | directive name isName known =>
      exact ⟨Text.isLowerName_foldCase isName, known⟩
  | number literal formed fits => exact ⟨literal.value, fits, rfl⟩
  | identifier word isWord => exact Text.isLowerWord_foldCase isWord
  | label word isWord => exact Text.isLowerWord_foldCase isWord

theorem isCanonical_directive {name : String}
    (isName : Text.isLowerName name = true)
    (known : instructions.isDirective name = true) :
    IsCanonical instructions ⟨.directive, name⟩ := by
  have folded := Text.foldCase_of_isLowerName isName
  have lexeme := @Lexeme.directive instructions name.toList
    (Text.isName_of_isLowerName isName)
  rw [String.ofList_toList, folded] at lexeme
  exact lexeme known

/-- A token in normal form is written with its text. -/
theorem IsNormal.isCanonical {token : Token}
    (normal : token.IsNormal instructions) :
    token.IsCanonical instructions := by
  obtain ⟨kind, text⟩ := token
  cases kind with
  | register => exact isCanonical_register normal.1 normal.2
  | directive => exact isCanonical_directive normal.1 normal.2
  | identifier => exact isCanonical_identifier normal
  | label => exact isCanonical_label normal
  | number =>
      obtain ⟨number, fits, rfl⟩ := normal
      exact isCanonical_number fits
  | comma =>
      obtain rfl : text = "," := normal
      exact isCanonical_comma
  | openParen =>
      obtain rfl : text = "(" := normal
      exact isCanonical_openParen
  | closeParen =>
      obtain rfl : text = ")" := normal
      exact isCanonical_closeParen

end Token

/-! ## Lexemes of a layout -/

theorem Source.Layout.exists_lexeme {tokens : List Token} {text : List Char}
    (layout : Layout instructions tokens text) {token : Token}
    (member : token ∈ tokens) :
    ∃ characters, Lexeme instructions token characters := by
  induction layout with
  | nil => cases member
  | blank isBlank layout ih => exact ih member
  | comment oneLine ends layout ih => exact ih member
  | lexeme lexeme ends layout ih =>
      rcases List.mem_cons.mp member with rfl | member
      · exact ⟨_, lexeme⟩
      · exact ih member

/-- A lexeme of any kind may end a text. -/
theorem Source.ends_nil (kind : TokenKind) : Ends kind [] := by
  have atEnd : AtTerminator [] := nofun
  cases kind with
  | comma | openParen | closeParen | label => trivial
  | register | directive | number => exact atEnd
  | identifier => exact ⟨atEnd, nofun⟩

namespace Token

/-- A text is read as the tokens that it is a layout of. -/
theorem ofSource_eq_ok_iff_layout {source : String} {tokens : List Token} :
    Token.ofSource instructions source = .ok tokens ↔
      Layout instructions tokens source.toList := by
  refine ⟨fun tokenized => ?_, ofSource_of_layout⟩
  obtain ⟨pieces, decomposition⟩ :
      ∃ pieces, IsDecomposition instructions pieces source.toList := by
    unfold Token.ofSource at tokenized
    split at tokenized
    · next read => exact exists_isDecomposition_of_readItems read
    · cases tokenized
  have read := ofSource_of_layout decomposition.layout
  obtain rfl := Except.ok.inj (read.symm.trans tokenized)
  exact decomposition.layout

theorem isNormal_of_ofSource {source : String} {tokens : List Token}
    (tokenized : Token.ofSource instructions source = .ok tokens)
    {token : Token} (member : token ∈ tokens) :
    token.IsNormal instructions := by
  obtain ⟨characters, lexeme⟩ :=
    (ofSource_eq_ok_iff_layout.mp tokenized).exists_lexeme member
  exact isNormal_of_lexeme lexeme

/-! ## One blank between neighbours -/

/-- The canonical lexemes of tokens with one blank between neighbours. -/
def line (tokens : List Token) : String :=
  " ".intercalate (tokens.map fun token => String.ofList token.characters)

theorem toList_line (tokens : List Token) :
    (line tokens).toList = [' '].intercalate (tokens.map characters) := by
  simp [line, String.toList_intercalate, Function.comp_def]

theorem layout_line {tokens : List Token}
    (canonical : ∀ token ∈ tokens, token.IsCanonical instructions) :
    Layout instructions tokens (line tokens).toList := by
  rw [toList_line]
  induction tokens with
  | nil => exact .nil
  | cons token tokens ih =>
      have lexeme := canonical token List.mem_cons_self
      have layout := ih fun later member => canonical later (.tail _ member)
      -- No blank follows the last token, so it has to end with the text.
      cases tokens with
      | nil => exact .lexeme lexeme (ends_nil _) .nil
      | cons next tokens =>
          rw [List.map_cons, List.map_cons, List.intercalate_cons_cons,
            List.append_assoc, ← List.map_cons]
          exact .lexeme lexeme (ends_blank _ _) (.blank rfl layout)

/-- The token lists that texts are read as are those in normal form, and the
line of such a list is one of its texts.  So to write the tokens of a text
and to read them again changes nothing. -/
theorem ofSource_line (instructions : InstructionSet) :
    (∀ tokens, (∃ source, Token.ofSource instructions source = .ok tokens) ↔
        ∀ token ∈ tokens, token.IsNormal instructions) ∧
      (∀ tokens, (∀ token ∈ tokens, token.IsNormal instructions) →
        Token.ofSource instructions (line tokens) = .ok tokens) ∧
      ∀ source tokens, Token.ofSource instructions source = .ok tokens →
        Token.ofSource instructions (line tokens) = .ok tokens := by
  have reads {tokens : List Token}
      (normal : ∀ token ∈ tokens, token.IsNormal instructions) :
      Token.ofSource instructions (line tokens) = .ok tokens :=
    ofSource_of_layout
      (layout_line fun token member => (normal token member).isCanonical)
  refine ⟨fun tokens => ⟨?_, fun normal => ⟨_, reads normal⟩⟩,
    fun tokens => reads, fun source tokens tokenized => ?_⟩
  · rintro ⟨source, tokenized⟩
    exact fun token => isNormal_of_ofSource tokenized
  · exact reads fun token => isNormal_of_ofSource tokenized

end Token

/-! ### A text in mixed case -/

namespace MixedCaseText

def source : String :=
  "LOOP:lw $T0,-0x04($sp)#$"

def tokens : List Token :=
  [⟨.label, "loop"⟩, ⟨.identifier, "lw"⟩, ⟨.register, "t0"⟩, ⟨.comma, ","⟩,
    ⟨.number, "-4"⟩, ⟨.openParen, "("⟩, ⟨.register, "sp"⟩, ⟨.closeParen, ")"⟩]

theorem tokenized : Token.ofSource Mips32.instructionSet source = .ok tokens := by
  decide +kernel

theorem ofSource_normalised :
    Token.ofSource Mips32.instructionSet source = .ok tokens ∧
      (∀ token ∈ tokens, token.IsNormal Mips32.instructionSet) ∧
      Token.ofSource Mips32.instructionSet "loop: lw $t0 , -4 ( $sp )" =
        .ok tokens := by
  obtain ⟨image, reads, -⟩ := Token.ofSource_line Mips32.instructionSet
  have normal := (image tokens).mp ⟨source, tokenized⟩
  have lineEq : Token.line tokens = "loop: lw $t0 , -4 ( $sp )" := by
    decide +kernel
  exact ⟨tokenized, normal, lineEq ▸ reads tokens normal⟩

end MixedCaseText

end MipsAssembler
