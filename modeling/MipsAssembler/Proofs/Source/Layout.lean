import MipsAssembler.Proofs.Source.Spelling
import MipsAssembler.Proofs.Text.Run
import MipsAssembler.Source.Tokens

/-!
# Layouts of token lists

A token list can be written in many ways: with words in either letter case,
numbers in three bases, and blanks and comments between the lexemes.  Reading
any of these texts gives the tokens back.
-/

namespace MipsAssembler.Source

variable {instructions : InstructionSet}

/-! ## Lexemes -/

/-- The text is empty or begins with a terminator. -/
def AtTerminator (text : List Char) : Prop :=
  ∀ character, text.head? = some character → isTerminator character = true

/-- Letters, digits and underscores. -/
def IsName (characters : List Char) : Prop :=
  ∀ character ∈ characters, isWordCharacter character = true

/-- A name that begins with a letter. -/
structure IsWord (characters : List Char) : Prop where
  isName : IsName characters
  letter : ∃ first rest, characters = first :: rest ∧ first.isAlpha = true

/-- What is written for a token. -/
inductive Lexeme (instructions : InstructionSet) : Token → List Char → Prop
  | comma : Lexeme instructions ⟨.comma, ","⟩ [',']
  | openParen : Lexeme instructions ⟨.openParen, "("⟩ ['(']
  | closeParen : Lexeme instructions ⟨.closeParen, ")"⟩ [')']
  | register (name : List Char) (isName : IsName name)
      (known : (instructions.register?
        (Text.foldCase (String.ofList name))).isSome) :
      Lexeme instructions ⟨.register, Text.foldCase (String.ofList name)⟩
        ('$' :: name)
  | directive (name : List Char) (isName : IsName name)
      (known : instructions.isDirective
        (Text.foldCase (String.ofList name)) = true) :
      Lexeme instructions ⟨.directive, Text.foldCase (String.ofList name)⟩
        ('.' :: name)
  | number (literal : Literal) (formed : literal.IsWellFormed)
      (fits : Literal.Fits literal.value) :
      Lexeme instructions ⟨.number, Decimal.write literal.value⟩
        literal.spelling
  | identifier (word : List Char) (isWord : IsWord word) :
      Lexeme instructions ⟨.identifier, Text.foldCase (String.ofList word)⟩ word
  | label (word : List Char) (isWord : IsWord word) :
      Lexeme instructions ⟨.label, Text.foldCase (String.ofList word)⟩
        (word ++ [':'])

/-- The lexeme of a token of the kind ends where the text begins. -/
def Ends (kind : TokenKind) (text : List Char) : Prop :=
  match kind with
  | .comma | .openParen | .closeParen | .label => True
  | .register | .directive | .number => AtTerminator text
  | .identifier => AtTerminator text ∧ text.head? ≠ some ':'

theorem atTerminator_cons {first : Char}
    (terminates : isTerminator first = true) (rest : List Char) :
    AtTerminator (first :: rest) := by
  rintro character ⟨⟩
  exact terminates

/-! ## Runs -/

theorem run_append {word rest : List Char}
    (ordinary : ∀ character ∈ word, isTerminator character = false)
    (ends : AtTerminator rest) : run (word ++ rest) = word := by
  apply Text.takeWhile_append_of_stops
  · intro character member
    rw [ordinary character member, Bool.not_false]
  · intro character atHead
    rw [ends character atHead, Bool.not_true]

theorem afterRun_append {word rest : List Char}
    (ordinary : ∀ character ∈ word, isTerminator character = false)
    (ends : AtTerminator rest) : afterRun (word ++ rest) = rest := by
  have split := run_append_afterRun (word ++ rest)
  rwa [run_append ordinary ends, List.append_cancel_left_eq] at split

theorem isTerminator_of_isWordCharacter {character : Char}
    (isWord : isWordCharacter character = true) :
    isTerminator character = false := by
  simp only [isWordCharacter, Char.isAlphanum, Bool.or_eq_true,
    decide_eq_true_eq] at isWord
  rcases isWord with (letter | digit) | rfl
  · exact isTerminator_of_isAlpha letter
  · exact isTerminator_of_isDigit digit
  · decide

theorem IsName.isTerminator {name : List Char} (isName : IsName name) :
    ∀ character ∈ name, isTerminator character = false :=
  fun character member =>
    isTerminator_of_isWordCharacter (isName character member)

theorem IsName.readName {name : List Char} (isName : IsName name) :
    readName name = .ok (Text.foldCase (String.ofList name)) := by
  have none : name.find? (fun character => !isWordCharacter character) = none :=
    List.find?_eq_none.mpr fun character member => by
      simp [isName character member]
  rw [Source.readName, none]

theorem isTerminator_of_mem_marker {radix : Radix} {marker : List Char}
    (marked : radix.MarkedBy marker) :
    ∀ character ∈ marker, isTerminator character = false := by
  intro character member
  cases marked with
  | decimal => cases member
  | _ =>
      simp only [List.mem_cons, List.not_mem_nil, or_false] at member
      rcases member with rfl | rfl <;> decide

theorem isTerminator_of_mem_spelling {literal : Literal}
    (formed : literal.IsWellFormed) :
    ∀ character ∈ literal.spelling, isTerminator character = false := by
  have marker := isTerminator_of_mem_marker formed.marked
  have digits : ∀ character ∈ literal.digits,
      isTerminator character = false := by
    intro character member
    have bounds := Radix.toNat_of_isDigit (formed.isDigit character member)
    apply isTerminator_eq_false
    omega
  intro character member
  rcases List.mem_append.mp member with inLead | inDigits
  · unfold Literal.lead at inLead
    split at inLead
    · rcases List.mem_cons.mp inLead with rfl | inMarker
      · decide
      · exact marker character inMarker
    · exact marker character inLead
  · exact digits character inDigits

/-! ## Reading one lexeme -/

theorem isTerminator_of_isBlank {character : Char}
    (blank : isBlank character = true) : isTerminator character = true := by
  simp only [isBlank, Bool.or_eq_true, decide_eq_true_eq] at blank
  rcases blank with ((rfl | rfl) | rfl) | rfl <;> decide

/-- A character that is neither a terminator nor a mark begins a number or a
word. -/
theorem readItem_of_isTerminator_eq_false {first : Char} {rest : List Char}
    (ordinary : isTerminator first = false) (unmarked : first ≠ '$') :
    readItem instructions first rest =
      if startsNumber first rest then readNumber (first :: rest)
      else if first.isAlpha then readWord (first :: rest)
      else .error (.invalidCharacter first) := by
  have notBlank : isBlank first = false := by
    cases blank : isBlank first with
    | false => rfl
    | true => simp [isTerminator_of_isBlank blank] at ordinary
  have distinct (other : Char) (terminates : isTerminator other = true) :
      first ≠ other := by
    rintro rfl
    simp [terminates] at ordinary
  simp [readItem, notBlank, unmarked, distinct '#' (by decide),
    distinct ',' (by decide), distinct '(' (by decide),
    distinct ')' (by decide), distinct '.' (by decide)]

theorem readItem_of_startsNumber {first : Char} {rest : List Char}
    (starts : startsNumber first rest = true) :
    readItem instructions first rest = readNumber (first :: rest) := by
  have unmarked : first ≠ '$' := by
    rintro rfl
    simp [startsNumber] at starts
  rw [readItem_of_isTerminator_eq_false (isTerminator_of_startsNumber starts)
    unmarked, if_pos starts]

theorem readItem_of_isAlpha {first : Char} {rest : List Char}
    (letter : first.isAlpha = true) :
    readItem instructions first rest = readWord (first :: rest) := by
  have unmarked : first ≠ '$' := by
    rintro rfl
    cases letter
  have notNumber : startsNumber first rest = false := by
    rw [startsNumber, Text.isDigit_of_isAlpha letter, decide_eq_false]
    · rfl
    · rintro rfl
      cases letter
  rw [readItem_of_isTerminator_eq_false (isTerminator_of_isAlpha letter)
    unmarked, notNumber, letter]
  rfl

theorem startsNumber_spelling {literal : Literal}
    (formed : literal.IsWellFormed) (rest : List Char) :
    ∃ first tail, literal.spelling ++ rest = first :: tail ∧
      startsNumber first tail = true := by
  obtain ⟨first, tail, consEq, digit⟩ := formed.exists_cons
  cases negative : literal.isNegative with
  | true =>
      refine ⟨'-', first :: tail ++ rest, ?_, ?_⟩
      · simp [Literal.spelling, Literal.lead, negative, ← consEq]
      · simp [startsNumber, digit]
  | false =>
      refine ⟨first, tail ++ rest, ?_, ?_⟩
      · simp [Literal.spelling, Literal.lead, negative, consEq]
      · simp [startsNumber, digit]

/-- Reading takes a lexeme that ends before the rest of the text. -/
theorem Lexeme.exists_readItem {token : Token} {characters rest : List Char}
    (lexeme : Lexeme instructions token characters)
    (ends : Ends token.kind rest) :
    ∃ first tail, characters ++ rest = first :: tail ∧
      readItem instructions first tail = .ok ⟨some token, rest⟩ := by
  cases lexeme with
  | comma => exact ⟨',', rest, rfl, rfl⟩
  | openParen => exact ⟨'(', rest, rfl, rfl⟩
  | closeParen => exact ⟨')', rest, rfl, rfl⟩
  | register name isName known =>
      refine ⟨'$', name ++ rest, rfl, ?_⟩
      change readRegister instructions (name ++ rest) = _
      rw [readRegister, run_append isName.isTerminator ends,
        afterRun_append isName.isTerminator ends, isName.readName]
      exact if_pos known
  | directive name isName known =>
      refine ⟨'.', name ++ rest, rfl, ?_⟩
      change readDirective instructions (name ++ rest) = _
      rw [readDirective, run_append isName.isTerminator ends,
        afterRun_append isName.isTerminator ends, isName.readName]
      exact if_pos known
  | number literal formed fits =>
      have ordinary := isTerminator_of_mem_spelling formed
      obtain ⟨first, tail, consEq, starts⟩ := startsNumber_spelling formed rest
      refine ⟨first, tail, consEq, ?_⟩
      rw [readItem_of_startsNumber starts, ← consEq, readNumber,
        run_append ordinary ends, afterRun_append ordinary ends,
        formed.read_spelling fits]
  | identifier _ isWord =>
      have ordinary := isWord.isName.isTerminator
      have wordRead : readWord (characters ++ rest) =
          .ok ⟨some ⟨.identifier, Text.foldCase (String.ofList characters)⟩, rest⟩ := by
        rw [readWord, run_append ordinary ends.1, afterRun_append ordinary ends.1,
          isWord.isName.readName]
        dsimp only
        split
        · exact absurd rfl ends.2
        · rfl
      obtain ⟨first, tail, rfl, letter⟩ := isWord.letter
      exact ⟨first, tail ++ rest, rfl, (readItem_of_isAlpha letter).trans wordRead⟩
  | label word isWord =>
      have ordinary := isWord.isName.isTerminator
      have colon : AtTerminator (':' :: rest) :=
        atTerminator_cons (by decide) rest
      have wordRead : readWord (word ++ ':' :: rest) =
          .ok ⟨some ⟨.label, Text.foldCase (String.ofList word)⟩, rest⟩ := by
        rw [readWord, run_append ordinary colon, afterRun_append ordinary colon,
          isWord.isName.readName]
        rfl
      obtain ⟨first, tail, rfl, letter⟩ := isWord.letter
      exact ⟨first, tail ++ ':' :: rest, by simp,
        (readItem_of_isAlpha letter).trans wordRead⟩

/-! ## Layouts -/

/-- The tokens are written in the text, with blanks and comments between
their lexemes. -/
inductive Layout (instructions : InstructionSet) :
    List Token → List Char → Prop
  | nil : Layout instructions [] []
  | blank {character : Char} {tokens : List Token} {text : List Char}
      (isBlank : isBlank character = true)
      (layout : Layout instructions tokens text) :
      Layout instructions tokens (character :: text)
  | comment {content : List Char} {tokens : List Token} {text : List Char}
      (oneLine : '\n' ∉ content)
      (ends : ∀ character, text.head? = some character → character = '\n')
      (layout : Layout instructions tokens text) :
      Layout instructions tokens ('#' :: (content ++ text))
  | lexeme {token : Token} {characters : List Char} {tokens : List Token}
      {text : List Char} (lexeme : Lexeme instructions token characters)
      (ends : Ends token.kind text)
      (layout : Layout instructions tokens text) :
      Layout instructions (token :: tokens) (characters ++ text)

theorem readItem_comment {content text : List Char} (oneLine : '\n' ∉ content)
    (ends : ∀ character, text.head? = some character → character = '\n') :
    readItem instructions '#' (content ++ text) = .ok ⟨none, text⟩ := by
  have skipped : ∀ character ∈ content, decide (character ≠ '\n') = true :=
    fun character member => decide_eq_true fun equal => oneLine (equal ▸ member)
  have kept : ∀ character, text.head? = some character →
      decide (character ≠ '\n') = false :=
    fun character atHead =>
      decide_eq_false (not_not_intro (ends character atHead))
  change Except.ok (⟨none, (content ++ text).dropWhile (· ≠ '\n')⟩ : Item) = _
  rw [Text.dropWhile_append_of_stops skipped kept]

theorem readItem_of_isBlank {character : Char} {text : List Char}
    (blank : isBlank character = true) :
    readItem instructions character text = .ok ⟨none, text⟩ :=
  if_pos blank

/-- Reading a layout gives its tokens. -/
theorem Layout.readItems {tokens : List Token} {text : List Char}
    (layout : Layout instructions tokens text) (found : List Token) :
    readItems instructions text found = .ok (found.reverse ++ tokens) := by
  induction layout generalizing found with
  | nil => simp [Source.readItems]
  | blank isBlank layout ih =>
      rw [readItems_cons, readItem_of_isBlank isBlank]
      exact ih found
  | comment oneLine ends layout ih =>
      rw [readItems_cons, readItem_comment oneLine ends]
      exact ih found
  | @lexeme token characters tokens text lexeme ends layout ih =>
      obtain ⟨first, rest, consEq, itemRead⟩ := lexeme.exists_readItem ends
      rw [consEq, readItems_cons, itemRead]
      exact (ih (token :: found)).trans (by simp)

/-- A lexeme of any kind ends before a blank. -/
theorem ends_blank (kind : TokenKind) (text : List Char) :
    Ends kind (' ' :: text) := by
  have atBlank : AtTerminator (' ' :: text) :=
    atTerminator_cons (by decide) text
  cases kind with
  | comma | openParen | closeParen | label => trivial
  | register | directive | number => exact atBlank
  | identifier => exact ⟨atBlank, nofun⟩

end MipsAssembler.Source

namespace MipsAssembler

open Source

variable {instructions : InstructionSet}

theorem Token.ofSource_of_layout {tokens : List Token} {source : String}
    (layout : Layout instructions tokens source.toList) :
    Token.ofSource instructions source = .ok tokens := by
  rw [Token.ofSource, layout.readItems []]
  rfl

end MipsAssembler
