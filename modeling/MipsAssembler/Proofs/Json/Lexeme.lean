import Mathlib.Data.List.TakeWhile
import Mathlib.Tactic.SplitIfs
import MipsAssembler.Json.Printer
import MipsAssembler.Json.Reader
import MipsAssembler.Proofs.Numeral.PaddedDigits
import MipsAssembler.Proofs.Text.Run

/-!
# Written JSON lexemes are read back

A string is read back however its characters are escaped.  A word or a number
is read back if the text after it cannot be taken for more of it.
-/

namespace MipsAssembler.Json

/-! ## Strings -/

theorem stringCodes?_shortEscape {letter character : Char}
    (denotes : shortEscape? letter = some character) (rest : List Char)
    (codes : List Nat) :
    stringCodes? ('\\' :: letter :: rest) codes =
      stringCodes? rest (character.toNat :: codes) := by
  have notUnicode : letter ≠ 'u' := by
    rintro rfl
    cases denotes
  simp [stringCodes?, notUnicode, denotes]

theorem stringCodes?_unicodeEscape {digits : List Char} {code : Nat}
    (width : digits.length = 4)
    (denotes : Radix.hexadecimal.read? digits = some code) (rest : List Char)
    (codes : List Nat) :
    stringCodes? ('\\' :: 'u' :: digits ++ rest) codes =
      stringCodes? rest (code :: codes) := by
  match digits, width with
  | [first, second, third, fourth], _ => simp [stringCodes?, denotes]

/-- The escape of a character denotes its code point. -/
theorem stringCodes?_escape (character : Char) (rest : List Char)
    (codes : List Nat) :
    stringCodes? (escape character ++ rest) codes =
      stringCodes? rest (character.toNat :: codes) := by
  unfold escape
  split_ifs with quotation backslash backspace formFeed lineFeed carriageReturn
    tab control
  · subst quotation
    exact stringCodes?_shortEscape rfl rest codes
  · subst backslash
    exact stringCodes?_shortEscape rfl rest codes
  · subst backspace
    exact stringCodes?_shortEscape rfl rest codes
  · subst formFeed
    exact stringCodes?_shortEscape rfl rest codes
  · subst lineFeed
    exact stringCodes?_shortEscape rfl rest codes
  · subst carriageReturn
    exact stringCodes?_shortEscape rfl rest codes
  · subst tab
    exact stringCodes?_shortEscape rfl rest codes
  · have small : character.toNat < Radix.hexadecimal.base ^ 4 :=
      Nat.lt_trans control (by decide)
    exact stringCodes?_unicodeEscape
      (Radix.length_paddedDigits (by decide) small) Radix.read?_paddedDigits
      rest codes
  · simp [stringCodes?, backslash, control]

theorem stringCodes?_flatMap_escape (text rest : List Char) (codes : List Nat) :
    stringCodes? (text.flatMap escape ++ '"' :: rest) codes =
      some (codes.reverse ++ text.map Char.toNat, rest) := by
  induction text generalizing codes with
  | nil => simp [stringCodes?]
  | cons character text ih =>
      rw [List.flatMap_cons, List.append_assoc, stringCodes?_escape, ih,
        List.reverse_cons, List.append_assoc, List.map_cons]
      rfl

/-- No code point of a character is half of a surrogate pair. -/
theorem not_surrogate (character : Char) :
    isHighSurrogate character.toNat = false ∧
      isLowSurrogate character.toNat = false := by
  have valid : character.toNat < 0xD800 ∨
      0xDFFF < character.toNat ∧ character.toNat < 0x110000 := character.valid
  simp only [isHighSurrogate, isLowSurrogate, Bool.and_eq_false_iff,
    decide_eq_false_iff_not]
  omega

theorem charactersOfCodes?_map_toNat (text : List Char) :
    charactersOfCodes? (text.map Char.toNat) = some text := by
  induction text with
  | nil => rfl
  | cons character text ih =>
      obtain ⟨notHigh, notLow⟩ := not_surrogate character
      cases text with
      | nil => simp [charactersOfCodes?, notHigh, notLow, Char.ofNat_toNat]
      | cons next text =>
          rw [List.map_cons, List.map_cons, charactersOfCodes?, ← List.map_cons,
            ih]
          simp [notHigh, notLow, Char.ofNat_toNat]

/-! ## Numbers -/

theorem isNumberCharacter_of_isDigit {character : Char}
    (digit : character.isDigit = true) : isNumberCharacter character = true := by
  rw [isNumberCharacter, digit, Bool.true_or]

theorem isNumberCharacter_of_isExponentPart {text : List Char}
    (exponent : isExponentPart text = true) :
    ∀ character ∈ text, isNumberCharacter character = true := by
  have digits {text : List Char}
      (allDigits : (text ≠ [] && text.all Char.isDigit) = true) :
      ∀ character ∈ text, isNumberCharacter character = true := by
    intro character member
    rw [Bool.and_eq_true, List.all_eq_true] at allDigits
    exact isNumberCharacter_of_isDigit (allDigits.2 character member)
  unfold isExponentPart at exponent
  split at exponent
  · exact fun _ member => absurd member List.not_mem_nil
  · next mark rest =>
    rw [Bool.and_eq_true] at exponent
    have markToo : isNumberCharacter mark = true := by
      rcases Bool.or_eq_true _ _ ▸ exponent.1 with isE | isE <;>
        rw [of_decide_eq_true isE] <;> rfl
    refine List.forall_mem_cons.mpr ⟨markToo, ?_⟩
    have restDigits := exponent.2
    split at restDigits
    · exact List.forall_mem_cons.mpr ⟨rfl, digits restDigits⟩
    · exact List.forall_mem_cons.mpr ⟨rfl, digits restDigits⟩
    · exact digits restDigits

/-- What follows a run of digits decides whether a text belongs to a number. -/
theorem isNumberCharacter_of_dropWhile {text : List Char}
    (after : ∀ character ∈ text.dropWhile Char.isDigit,
      isNumberCharacter character = true) :
    ∀ character ∈ text, isNumberCharacter character = true := by
  intro character member
  rw [← List.takeWhile_append_dropWhile (p := Char.isDigit) (l := text)] at member
  rcases List.mem_append.mp member with digit | later
  · exact isNumberCharacter_of_isDigit
      (List.all_eq_true.mp List.all_takeWhile character digit)
  · exact after character later

theorem isNumberCharacter_of_isFractionPart {text : List Char}
    (fraction : isFractionPart text = true) :
    ∀ character ∈ text, isNumberCharacter character = true := by
  unfold isFractionPart at fraction
  split at fraction
  · rw [Bool.and_eq_true] at fraction
    exact List.forall_mem_cons.mpr ⟨rfl, isNumberCharacter_of_dropWhile
      (isNumberCharacter_of_isExponentPart fraction.2)⟩
  · exact isNumberCharacter_of_isExponentPart fraction

theorem isNumberCharacter_of_isUnsignedNumber {text : List Char}
    (unsigned : isUnsignedNumber text = true) :
    ∀ character ∈ text, isNumberCharacter character = true := by
  unfold isUnsignedNumber at unsigned
  split at unsigned
  · exact List.forall_mem_cons.mpr
      ⟨rfl, isNumberCharacter_of_isFractionPart unsigned⟩
  · rw [Bool.and_eq_true] at unsigned
    exact List.forall_mem_cons.mpr ⟨isNumberCharacter_of_isDigit unsigned.1,
      isNumberCharacter_of_dropWhile
        (isNumberCharacter_of_isFractionPart unsigned.2)⟩
  · cases unsigned

theorem isNumberCharacter_of_isNumber {text : List Char}
    (number : isNumber text = true) :
    ∀ character ∈ text, isNumberCharacter character = true := by
  unfold isNumber at number
  split at number
  · exact List.forall_mem_cons.mpr
      ⟨rfl, isNumberCharacter_of_isUnsignedNumber number⟩
  · exact isNumberCharacter_of_isUnsignedNumber number

/-- A number begins with its sign or a digit. -/
theorem eq_cons_of_isNumber {text : List Char} (number : isNumber text = true) :
    ∃ first rest, text = first :: rest ∧
      (first = '-' ∨ first.isDigit = true) := by
  unfold isNumber at number
  split at number
  · exact ⟨_, _, rfl, .inl rfl⟩
  · unfold isUnsignedNumber at number
    split at number
    · exact ⟨_, _, rfl, .inr rfl⟩
    · exact ⟨_, _, rfl, .inr (Bool.and_eq_true _ _ ▸ number).1⟩
    · cases number

theorem isDigit_of_mem_digits {number : Nat} :
    ∀ character ∈ Radix.decimal.digits number, character.isDigit = true := by
  have digits : ∀ digit < 10, digit.digitChar.isDigit = true := by decide
  intro character member
  obtain ⟨digit, small, rfl⟩ := Radix.exists_digitChar_of_mem_digits member
  exact digits digit small

theorem isUnsignedNumber_digits (number : Nat) :
    isUnsignedNumber (Radix.decimal.digits number) = true := by
  rcases Nat.eq_zero_or_pos number with rfl | positive
  · decide
  · have allDigits := @isDigit_of_mem_digits number
    have notZero := @Radix.head?_digits_ne_zero .decimal number positive
    cases digitsEq : Radix.decimal.digits number with
    | nil => exact absurd digitsEq (Radix.digits_ne_nil number)
    | cons first rest =>
        rw [digitsEq, List.forall_mem_cons] at allDigits
        rw [digitsEq] at notZero
        have firstNotZero : first ≠ '0' := fun zero => notZero (zero ▸ rfl)
        have noFraction : rest.dropWhile Char.isDigit = [] :=
          List.dropWhile_eq_nil_iff.mpr allDigits.2
        rw [isUnsignedNumber, allDigits.1, noFraction]
        · rfl
        · exact firstNotZero

theorem isNumber_digits (number : Nat) :
    isNumber (Radix.decimal.digits number) = true := by
  unfold isNumber
  split
  · next rest minusEq =>
    have digit := isDigit_of_mem_digits '-' (minusEq ▸ List.mem_cons_self)
    cases digit
  · exact isUnsignedNumber_digits number

theorem isNumber_characters (number : Int) :
    isNumber (Decimal.characters number) = true := by
  rw [Decimal.characters]
  split
  · exact isUnsignedNumber_digits number.natAbs
  · exact isNumber_digits number.natAbs

/-! ## One lexeme in front of a text -/

variable {found : List Lexeme}

theorem lexemes?_space {space : Char} (isSpace : isSpace space = true)
    (rest : List Char) :
    lexemes? (space :: rest) found = lexemes? rest found := by
  rw [lexemes?, if_pos isSpace]

theorem lexemes?_spaces {spaces : List Char}
    (areSpaces : ∀ space ∈ spaces, isSpace space = true) (rest : List Char) :
    lexemes? (spaces ++ rest) found = lexemes? rest found := by
  induction spaces with
  | nil => rfl
  | cons space spaces ih =>
      rw [List.forall_mem_cons] at areSpaces
      rw [List.cons_append, lexemes?_space areSpaces.1, ih areSpaces.2]

theorem lexemes?_lexeme {first : Char} {rest remaining : List Char}
    {lexeme : Lexeme} (notSpace : isSpace first = false)
    (read : lexeme? first rest = some (lexeme, remaining)) :
    lexemes? (first :: rest) found = lexemes? remaining (lexeme :: found) := by
  rw [lexemes?, if_neg (Bool.eq_false_iff.mp notSpace)]
  split
  · next failed => rw [read] at failed; cases failed
  · next lexeme' remaining' readToo =>
    rw [read] at readToo
    cases readToo
    rfl

theorem lexemes?_mark {character : Char} {mark : Lexeme}
    (isMark : mark? character = some mark) (rest : List Char) :
    lexemes? (character :: rest) found = lexemes? rest (mark :: found) := by
  have notSpace : isSpace character = false := by
    unfold mark? at isMark
    split at isMark <;> first | rfl | cases isMark
  exact lexemes?_lexeme notSpace (by rw [lexeme?, isMark])

theorem lexemes?_writeString (text? : Option String) (rest : List Char) :
    lexemes? ((writeString text?).toList ++ rest) found =
      lexemes? rest (.string text? :: found) := by
  cases text? with
  | none => exact lexemes?_lexeme rfl rfl
  | some text =>
      have codes := stringCodes?_flatMap_escape text.toList rest []
      have written : (writeString (some text)).toList ++ rest =
          '"' :: (text.toList.flatMap escape ++ '"' :: rest) := by
        simp [writeString, quote]
      rw [written]
      apply lexemes?_lexeme rfl
      simp [lexeme?, mark?, codes, charactersOfCodes?_map_toNat]

/-! ## Where words and numbers end -/

/-- No word and no number goes on with the character. -/
def StopsAt (character : Char) : Prop :=
  character.isAlpha = false ∧ isNumberCharacter character = false

instance (character : Char) : Decidable (StopsAt character) :=
  inferInstanceAs (Decidable (_ ∧ _))

/-- No word and no number goes on with the text. -/
def Stops (text : List Char) : Prop :=
  ∀ character, text.head? = some character → StopsAt character

theorem stops_cons {first : Char} (stopsAt : StopsAt first) (rest : List Char) :
    Stops (first :: rest) := by
  rintro character ⟨⟩
  exact stopsAt

theorem stopsAt_of_mark? {character : Char} {mark : Lexeme}
    (isMark : mark? character = some mark) : StopsAt character := by
  unfold mark? at isMark
  split at isMark <;> first | decide | cases isMark

theorem stopsAt_of_isSpace {character : Char}
    (space : isSpace character = true) : StopsAt character := by
  simp only [isSpace, Bool.or_eq_true, decide_eq_true_eq] at space
  rcases space with ((rfl | rfl) | rfl) | rfl <;> decide

/-- A character that does not stop words and numbers begins one itself. -/
theorem lexemes?_of_not_stopsAt {first : Char} (goesOn : ¬ StopsAt first)
    {rest remaining : List Char} {lexeme : Lexeme}
    (read : (if first.isAlpha then
        (word? (first :: rest.takeWhile Char.isAlpha)).map fun word =>
          (word, rest.dropWhile Char.isAlpha)
      else if isNumber (first :: rest.takeWhile isNumberCharacter) then
        some (.number (String.ofList (first :: rest.takeWhile isNumberCharacter)),
          rest.dropWhile isNumberCharacter)
      else
        none) = some (lexeme, remaining)) :
    lexemes? (first :: rest) found = lexemes? remaining (lexeme :: found) := by
  have notSpace : isSpace first = false :=
    Bool.eq_false_iff.mpr (mt stopsAt_of_isSpace goesOn)
  have notMark : mark? first = none := by
    cases isMark : mark? first with
    | none => rfl
    | some mark => exact absurd (stopsAt_of_mark? isMark) goesOn
  have notQuotation : first ≠ '"' := by
    rintro rfl
    exact goesOn (by decide)
  apply lexemes?_lexeme notSpace
  rw [lexeme?, notMark]
  simpa only [if_neg notQuotation] using read

/-- The text is read as the lexemes where no word or number goes on. -/
def ReadsAs (text : List Char) (lexemes : List Lexeme) : Prop :=
  ∀ rest found, Stops rest →
    lexemes? (text ++ rest) found = lexemes? rest (lexemes.reverse ++ found)

theorem readsAs_word {word : List Char} {lexeme : Lexeme}
    (isWord : word? word = some lexeme) : ReadsAs word [lexeme] := by
  intro rest found stops
  have allLetters : word.all Char.isAlpha = true := by
    unfold word? at isWord
    split at isWord <;> first | rfl | cases isWord
  have letters := List.all_eq_true.mp allLetters
  cases word with
  | nil => cases isWord
  | cons first later =>
      rw [List.forall_mem_cons] at letters
      have ends : ∀ character, rest.head? = some character →
          character.isAlpha = false :=
        fun character atHead => (stops character atHead).1
      have goesOn : ¬ StopsAt first := fun stopsAt =>
        Bool.false_ne_true (stopsAt.1.symm.trans letters.1)
      rw [List.cons_append]
      apply lexemes?_of_not_stopsAt goesOn
      rw [if_pos letters.1, Text.takeWhile_append_of_stops letters.2 ends,
        Text.dropWhile_append_of_stops letters.2 ends, isWord]
      rfl

theorem readsAs_number {spelling : String}
    (number : isNumber spelling.toList = true) :
    ReadsAs spelling.toList [.number spelling] := by
  intro rest found stops
  have characters := isNumberCharacter_of_isNumber number
  obtain ⟨first, later, spelled, signOrDigit⟩ := eq_cons_of_isNumber number
  rw [spelled] at number characters ⊢
  rw [List.forall_mem_cons] at characters
  have ends : ∀ character, rest.head? = some character →
      isNumberCharacter character = false :=
    fun character atHead => (stops character atHead).2
  have goesOn : ¬ StopsAt first := fun stopsAt =>
    Bool.false_ne_true (stopsAt.2.symm.trans characters.1)
  have notLetter : first.isAlpha = false := by
    rcases signOrDigit with rfl | digit
    · rfl
    · exact Text.isAlpha_of_isDigit digit
  rw [List.cons_append]
  apply lexemes?_of_not_stopsAt goesOn
  rw [notLetter, if_neg Bool.false_ne_true,
    Text.takeWhile_append_of_stops characters.2 ends,
    Text.dropWhile_append_of_stops characters.2 ends, if_pos number, ← spelled,
    String.ofList_toList]

end MipsAssembler.Json
