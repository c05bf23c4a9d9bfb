import Mathlib.Tactic.SplitIfs
import MipsAssembler.Proofs.Source.Decomposition

/-!
# Source texts up to letter case

Reading a text whose ASCII letters are all in lower case gives the tokens of
the text itself.  If there is a fault, it stands at the same position and says
the same up to letter case.
-/

namespace MipsAssembler

/-! ## Characters -/

namespace Text

variable {character other : Char}

/-- Folding makes no other character into one that comes before the letters. -/
theorem toLower_eq_iff (small : other.toNat < 0x41) :
    character.toLower = other ↔ character = other := by
  have value := toNat_toLower character
  rw [← Char.toNat_inj, ← Char.toNat_inj]
  split at value <;> omega

theorem toLower_eq_lineFeed_iff :
    character.toLower = '\n' ↔ character = '\n' :=
  toLower_eq_iff (by decide)

/-- Folding makes a lower-case letter of itself and of its capital. -/
theorem toLower_eq_lower_iff {capital : Char}
    (isCapital : 0x41 ≤ capital.toNat ∧ capital.toNat ≤ 0x5A)
    (lower : other.toNat = capital.toNat + 0x20) :
    character.toLower = other ↔ character = other ∨ character = capital := by
  have value := toNat_toLower character
  rw [← Char.toNat_inj, ← Char.toNat_inj, ← Char.toNat_inj]
  split at value <;> omega

theorem toLower_ne_capital
    (isCapital : 0x41 ≤ other.toNat ∧ other.toNat ≤ 0x5A) :
    character.toLower ≠ other := by
  have value := toNat_toLower character
  rw [ne_eq, ← Char.toNat_inj]
  split at value <;> omega

theorem isWhiteSpace_toLower (character : Char) :
    isWhiteSpace character.toLower = isWhiteSpace character := by
  have value := toNat_toLower character
  rw [Bool.eq_iff_iff]
  simp only [isWhiteSpace, whiteSpaceRanges, List.any_cons, List.any_nil,
    Bool.or_false, Bool.or_eq_true, Bool.and_eq_true, decide_eq_true_eq]
  split at value <;> omega

theorem isDigit_toLower (character : Char) :
    character.toLower.isDigit = character.isDigit := by
  have value := toNat_toLower character
  rw [Bool.eq_iff_iff, Char.isDigit_iff_toNat, Char.isDigit_iff_toNat]
  simp only [Char.reduceToNat]
  split at value <;> omega

theorem isAlpha_toLower (character : Char) :
    character.toLower.isAlpha = character.isAlpha := by
  have value := toNat_toLower character
  rw [Bool.eq_iff_iff, isAlpha_iff_toNat, isAlpha_iff_toNat]
  split at value <;> omega

theorem foldCase_ofList (characters : List Char) :
    foldCase (String.ofList characters) =
      String.ofList (characters.map Char.toLower) := by
  rw [foldCase, String.toList_ofList]

end Text

open Text

/-! ## Digits -/

namespace Radix

theorem hexadecimalValue?_toLower (character : Char) :
    hexadecimalValue? character.toLower = hexadecimalValue? character := by
  have range (first last other : Char) : first ≤ other ∧ other ≤ last ↔
      first.toNat ≤ other.toNat ∧ other.toNat ≤ last.toNat := by
    simp only [Char.le_def, UInt32.le_iff_toNat_le]
    rfl
  have value := toNat_toLower character
  simp only [hexadecimalValue?, range, Char.reduceToNat]
  -- A capital is read in the third branch, and folded in the second one.
  split at value <;> split_ifs <;>
    first | omega | (rw [Option.some.injEq]; omega) | rfl

theorem digitValue?_toLower (radix : Radix) (character : Char) :
    radix.digitValue? character.toLower = radix.digitValue? character := by
  rw [digitValue?, digitValue?, hexadecimalValue?_toLower]

theorem isDigit_comp_toLower (radix : Radix) :
    radix.isDigit ∘ Char.toLower = radix.isDigit := by
  funext character
  simp [isDigit, digitValue?_toLower]

theorem value_map_toLower (radix : Radix) (digits : List Char) :
    radix.value (digits.map Char.toLower) = radix.value digits := by
  simp only [value, List.foldl_map, digitValue?_toLower]

end Radix

/-! ## Faults -/

theorem mapError_ok {Error Error' Value : Type} (fold : Error → Error')
    (value : Value) : (Except.ok value).mapError fold = .ok value :=
  rfl

theorem mapError_error {Error Error' Value : Type} (fold : Error → Error')
    (error : Error) :
    (Except.error error : Except Error Value).mapError fold =
      .error (fold error) :=
  rfl

/-- The fault with all letters in lower case. -/
def LexicalFault.foldCase : LexicalFault → LexicalFault
  | invalidCharacter character => invalidCharacter character.toLower
  | invalidRegister name => invalidRegister (Text.foldCase name)
  | invalidDirective name => invalidDirective (Text.foldCase name)
  | invalidIntegerCharacter accepted character =>
      invalidIntegerCharacter (Text.foldCase accepted) character.toLower
  | invalidNumber spelling => invalidNumber (Text.foldCase spelling)

def LexicalError.foldCase (error : LexicalError) : LexicalError :=
  ⟨error.fault.foldCase, error.position⟩

/-! ## Literals -/

namespace Literal

def foldCase (literal : Literal) : Literal where
  isNegative := literal.isNegative
  marker := literal.marker.map Char.toLower
  radix := literal.radix
  digits := literal.digits.map Char.toLower

/-- The letters that mark a base, after a zero. -/
def baseLetters : List Char :=
  ['x', 'X', 'b', 'B']

theorem toLower_mem_baseLetters_iff {letter : Char} :
    letter.toLower ∈ baseLetters ↔ letter ∈ baseLetters := by
  have isX : letter.toLower = 'x' ↔ letter = 'x' ∨ letter = 'X' :=
    toLower_eq_lower_iff (by decide) (by decide)
  have isB : letter.toLower = 'b' ↔ letter = 'b' ∨ letter = 'B' :=
    toLower_eq_lower_iff (by decide) (by decide)
  have notX : letter.toLower ≠ 'X' := toLower_ne_capital (by decide)
  have notB : letter.toLower ≠ 'B' := toLower_ne_capital (by decide)
  simp only [baseLetters, List.mem_cons, List.not_mem_nil, or_false, isX, isB,
    notX, notB, or_assoc, false_or]

/-- The spelling begins with the mark of a base. -/
def IsMarked (unsigned : List Char) : Prop :=
  ∃ letter ∈ baseLetters, ∃ digits, unsigned = '0' :: letter :: digits

theorem isMarked_map_toLower_iff {unsigned : List Char} :
    IsMarked (unsigned.map Char.toLower) ↔ IsMarked unsigned := by
  constructor
  · rintro ⟨letter, marks, digits, folded⟩
    obtain ⟨first, rest, rfl, zero, foldedRest⟩ := List.map_eq_cons_iff.mp folded
    obtain ⟨second, rest, rfl, rfl, -⟩ := List.map_eq_cons_iff.mp foldedRest
    obtain rfl := (toLower_eq_iff (by decide)).mp zero
    exact ⟨second, toLower_mem_baseLetters_iff.mp marks, rest, rfl⟩
  · rintro ⟨letter, marks, digits, rfl⟩
    exact ⟨letter.toLower, toLower_mem_baseLetters_iff.mpr marks,
      digits.map Char.toLower, rfl⟩

theorem ofUnsigned_of_not_isMarked (isNegative : Bool) {unsigned : List Char}
    (unmarked : ¬ IsMarked unsigned) :
    ofUnsigned isNegative unsigned = ⟨isNegative, [], .decimal, unsigned⟩ := by
  unfold ofUnsigned
  split
  · exact absurd ⟨'x', by decide, _, rfl⟩ unmarked
  · exact absurd ⟨'X', by decide, _, rfl⟩ unmarked
  · exact absurd ⟨'b', by decide, _, rfl⟩ unmarked
  · exact absurd ⟨'B', by decide, _, rfl⟩ unmarked
  · rfl

theorem ofUnsigned_map_toLower (isNegative : Bool) (unsigned : List Char) :
    ofUnsigned isNegative (unsigned.map Char.toLower) =
      (ofUnsigned isNegative unsigned).foldCase := by
  by_cases marked : IsMarked unsigned
  · obtain ⟨letter, marks, digits, rfl⟩ := marked
    simp only [baseLetters, List.mem_cons, List.not_mem_nil, or_false] at marks
    rcases marks with rfl | rfl | rfl | rfl <;> rfl
  · rw [ofUnsigned_of_not_isMarked isNegative marked,
      ofUnsigned_of_not_isMarked isNegative (mt isMarked_map_toLower_iff.mp marked)]
    rfl

theorem ofSpelling_map_toLower (characters : List Char) :
    ofSpelling (characters.map Char.toLower) =
      (ofSpelling characters).foldCase := by
  have isMinus (character : Char) : character.toLower = '-' ↔ character = '-' :=
    toLower_eq_iff (by decide)
  cases characters with
  | nil => rfl
  | cons first rest =>
      by_cases minus : first = '-'
      · subst minus
        exact ofUnsigned_map_toLower true rest
      · have minusToo : first.toLower ≠ '-' := mt (isMinus first).mp minus
        have unsigned : ofSpelling (first :: rest) =
            ofUnsigned false (first :: rest) := by
          simp [ofSpelling, minus]
        have unsignedToo : ofSpelling (first.toLower :: rest.map Char.toLower) =
            ofUnsigned false (first.toLower :: rest.map Char.toLower) := by
          simp [ofSpelling, minusToo]
        rw [unsigned, List.map_cons, unsignedToo, ← List.map_cons]
        exact ofUnsigned_map_toLower false (first :: rest)

theorem value_foldCase (literal : Literal) :
    literal.foldCase.value = literal.value := by
  simp only [value, foldCase, Radix.value_map_toLower]

theorem lead_foldCase (literal : Literal) :
    literal.foldCase.lead = literal.lead.map Char.toLower := by
  unfold lead
  cases negative : literal.isNegative <;> simp [foldCase, negative]

theorem spelling_foldCase (literal : Literal) :
    literal.foldCase.spelling = literal.spelling.map Char.toLower := by
  rw [spelling, spelling, lead_foldCase, List.map_append]
  rfl

theorem check_foldCase (literal : Literal) :
    literal.foldCase.check =
      literal.check.mapError LexicalFault.foldCase := by
  have dropped : literal.foldCase.digits.dropWhile
      literal.foldCase.radix.isDigit =
        (literal.digits.dropWhile literal.radix.isDigit).map Char.toLower := by
    simp only [foldCase, List.dropWhile_map, Radix.isDigit_comp_toLower]
  have taken : literal.foldCase.digits.takeWhile
      literal.foldCase.radix.isDigit =
        (literal.digits.takeWhile literal.radix.isDigit).map Char.toLower := by
    simp only [foldCase, List.takeWhile_map, Radix.isDigit_comp_toLower]
  have nonempty : literal.foldCase.digits ≠ [] ↔ literal.digits ≠ [] := by
    simp [foldCase]
  unfold check
  rw [dropped, taken, value_foldCase, lead_foldCase, spelling_foldCase]
  cases literal.digits.dropWhile literal.radix.isDigit with
  | cons foreign rest =>
      simp only [mapError_error, LexicalFault.foldCase, foldCase_ofList,
        List.map_cons, List.map_append]
  | nil =>
      simp only [List.map_nil, nonempty]
      split
      · rfl
      · simp only [mapError_error, LexicalFault.foldCase, foldCase_ofList]

theorem read_map_toLower (characters : List Char) :
    read (characters.map Char.toLower) =
      (read characters).mapError LexicalFault.foldCase := by
  rw [read, read, ofSpelling_map_toLower, check_foldCase]

end Literal

namespace Source

variable {instructions : InstructionSet}

/-! ## Runs -/

theorem isPunctuation_toLower (character : Char) :
    isPunctuation character.toLower = isPunctuation character := by
  simp only [isPunctuation, List.contains_eq_mem, List.mem_cons,
    List.not_mem_nil, or_false]
  simp (disch := decide) only [toLower_eq_iff]

theorem isTerminator_toLower (character : Char) :
    isTerminator character.toLower = isTerminator character := by
  rw [isTerminator, isTerminator, isWhiteSpace_toLower, isPunctuation_toLower]

theorem isBlank_toLower (character : Char) :
    isBlank character.toLower = isBlank character := by
  simp (disch := decide) only [isBlank, toLower_eq_iff]

theorem isWordCharacter_toLower (character : Char) :
    isWordCharacter character.toLower = isWordCharacter character := by
  have underscore : character.toLower = '_' ↔ character = '_' := by
    have value := toNat_toLower character
    rw [← Char.toNat_inj, ← Char.toNat_inj]
    simp only [Char.reduceToNat]
    split at value <;> omega
  simp only [isWordCharacter, Char.isAlphanum, isAlpha_toLower, isDigit_toLower,
    underscore]

theorem run_map_toLower (text : List Char) :
    run (text.map Char.toLower) = (run text).map Char.toLower := by
  simp only [run, List.takeWhile_map, Function.comp_def, isTerminator_toLower]

theorem afterRun_map_toLower (text : List Char) :
    afterRun (text.map Char.toLower) = (afterRun text).map Char.toLower := by
  simp only [afterRun, List.dropWhile_map, Function.comp_def,
    isTerminator_toLower]

theorem readName_map_toLower (characters : List Char) :
    readName (characters.map Char.toLower) =
      (readName characters).mapError LexicalFault.foldCase := by
  have found : (characters.map Char.toLower).find?
      (fun character => !isWordCharacter character) =
        (characters.find? fun character =>
          !isWordCharacter character).map Char.toLower := by
    simp only [List.find?_map, Function.comp_def, isWordCharacter_toLower]
  unfold readName
  rw [found]
  cases characters.find? fun character => !isWordCharacter character with
  | none =>
      have folded := foldCase_foldCase (String.ofList characters)
      rw [foldCase_ofList] at folded
      simp [mapError_ok, foldCase_ofList, folded]
  | some character => rfl

/-! ## Items -/

/-- What reading an item gives, with all letters in lower case. -/
def foldItem : Except LexicalFault Item → Except LexicalFault Item
  | .error fault => .error fault.foldCase
  | .ok item => .ok ⟨item.token?, item.remaining.map Char.toLower⟩

theorem readRegister_map_toLower (rest : List Char) :
    readRegister instructions (rest.map Char.toLower) =
      foldItem (readRegister instructions rest) := by
  unfold readRegister
  rw [run_map_toLower, readName_map_toLower, afterRun_map_toLower]
  cases nameRead : readName (run rest) with
  | error fault => rfl
  | ok name =>
      obtain ⟨-, rfl⟩ := readName_eq_ok_iff.mp nameRead
      simp only [mapError_ok]
      split
      · rfl
      · simp [foldItem, LexicalFault.foldCase]

theorem readDirective_map_toLower (rest : List Char) :
    readDirective instructions (rest.map Char.toLower) =
      foldItem (readDirective instructions rest) := by
  unfold readDirective
  rw [run_map_toLower, readName_map_toLower, afterRun_map_toLower]
  cases nameRead : readName (run rest) with
  | error fault => rfl
  | ok name =>
      obtain ⟨-, rfl⟩ := readName_eq_ok_iff.mp nameRead
      simp only [mapError_ok]
      split
      · rfl
      · simp [foldItem, LexicalFault.foldCase]

theorem readNumber_map_toLower (text : List Char) :
    readNumber (text.map Char.toLower) = foldItem (readNumber text) := by
  unfold readNumber
  rw [run_map_toLower, Literal.read_map_toLower, afterRun_map_toLower]
  cases Literal.read (run text) <;> rfl

theorem readWord_map_toLower (text : List Char) :
    readWord (text.map Char.toLower) = foldItem (readWord text) := by
  unfold readWord
  rw [run_map_toLower, readName_map_toLower, afterRun_map_toLower]
  cases readName (run text) with
  | error fault => rfl
  | ok name =>
      simp only [mapError_ok]
      cases afterRun text with
      | nil => rfl
      | cons first rest =>
          have isColon : first.toLower = ':' ↔ first = ':' :=
            toLower_eq_iff (by decide)
          by_cases colon : first = ':'
          · subst colon
            rfl
          · have colonToo := mt isColon.mp colon
            simp [foldItem, colon, colonToo]

theorem startsNumber_toLower (first : Char) (rest : List Char) :
    startsNumber first.toLower (rest.map Char.toLower) =
      startsNumber first rest := by
  have isMinus : first.toLower = '-' ↔ first = '-' :=
    toLower_eq_iff (by decide)
  simp only [startsNumber, isDigit_toLower, isMinus, List.head?_map]
  cases rest.head? <;> simp [isDigit_toLower]

theorem dropWhile_ne_lineFeed_map_toLower (rest : List Char) :
    (rest.map Char.toLower).dropWhile (· ≠ '\n') =
      (rest.dropWhile (· ≠ '\n')).map Char.toLower := by
  simp only [List.dropWhile_map, Function.comp_def, ne_eq,
    toLower_eq_lineFeed_iff]

/-- Folding the letters of a text folds what is read at its front. -/
theorem readItem_toLower (first : Char) (rest : List Char) :
    readItem instructions first.toLower (rest.map Char.toLower) =
      foldItem (readItem instructions first rest) := by
  unfold readItem
  rw [isBlank_toLower, startsNumber_toLower, isAlpha_toLower,
    readRegister_map_toLower, readDirective_map_toLower,
    dropWhile_ne_lineFeed_map_toLower, ← List.map_cons,
    readNumber_map_toLower, readWord_map_toLower]
  have isMark {other : Char} (small : other.toNat < 0x41) :
      first.toLower = other ↔ first = other :=
    toLower_eq_iff small
  simp only [@isMark '#' (by decide), @isMark ',' (by decide),
    @isMark '(' (by decide), @isMark ')' (by decide), @isMark '$' (by decide),
    @isMark '.' (by decide), apply_ite foldItem]
  rfl

/-! ## Texts -/

def Refusal.foldCase (refusal : Refusal) : Refusal :=
  ⟨refusal.fault.foldCase, refusal.remaining.map Char.toLower⟩

theorem readItems_map_toLower (text : List Char) (found : List Token) :
    readItems instructions (text.map Char.toLower) found =
      (readItems instructions text found).mapError Refusal.foldCase := by
  induction size : text.length using Nat.strongRecOn
    generalizing text found with
  | ind count ih =>
      cases text with
      | nil => simp [readItems, mapError_ok]
      | cons first rest =>
          rw [List.map_cons, readItems_cons, readItems_cons, readItem_toLower]
          cases itemRead : readItem instructions first rest with
          | error fault => rfl
          | ok item =>
              have shorter : item.remaining.length < count := by
                have bound := length_remaining_readItem_le itemRead
                rw [← size, List.length_cons]
                omega
              exact ih _ shorter item.remaining _ rfl

theorem after_map_toLower (text : List Char) :
    Position.after (text.map Char.toLower) = Position.after text := by
  have advance_toLower (position : Position) (character : Char) :
      position.advance character.toLower = position.advance character := by
    simp only [Position.advance, toLower_eq_lineFeed_iff]
  simp only [Position.after, List.foldl_map, advance_toLower]

theorem positionOf_map_toLower (text remaining : List Char) :
    positionOf (text.map Char.toLower) (remaining.map Char.toLower) =
      positionOf text remaining := by
  rw [positionOf, positionOf, List.length_map, List.length_map,
    ← List.map_take, after_map_toLower]

end Source

/-- A text in lower case has the same tokens, or the same fault up to letter
case at the same position. -/
theorem Token.ofSource_foldCase (instructions : InstructionSet)
    (source : String) :
    Token.ofSource instructions (Text.foldCase source) =
      (Token.ofSource instructions source).mapError LexicalError.foldCase := by
  unfold Token.ofSource
  rw [toList_foldCase, Source.readItems_map_toLower]
  cases Source.readItems instructions source.toList [] with
  | ok tokens => rfl
  | error refusal =>
      simp only [mapError_error, Source.Refusal.foldCase,
        Source.positionOf_map_toLower]
      rfl

end MipsAssembler
