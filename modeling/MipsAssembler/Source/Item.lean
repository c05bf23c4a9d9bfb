import MipsAssembler.Machine.InstructionSet
import MipsAssembler.Numeral.Decimal
import MipsAssembler.Source.Literal
import MipsAssembler.Source.Token
import MipsAssembler.Text.LetterCase
import MipsAssembler.Text.WhiteSpace

/-!
# Items of a source text

A source text is a sequence of items: blanks, comments and tokens.  The first
character of an item says what kind it is, and words and numbers extend to the
next terminator.  Terminators include all white space, but only four white
space characters are blanks; the others end a word and are then refused.
-/

namespace MipsAssembler.Source

/-! ## Character classes -/

/-- A character that may stand between tokens. -/
def isBlank (character : Char) : Bool :=
  character = ' ' || character = '\t' || character = '\r' || character = '\n'

/-- Punctuation that ends a word without being part of it. -/
def isPunctuation (character : Char) : Bool :=
  ['.', ',', ':', '(', ')', '#'].contains character

def isTerminator (character : Char) : Bool :=
  Text.isWhiteSpace character || isPunctuation character

def isWordCharacter (character : Char) : Bool :=
  character.isAlphanum || character = '_'

theorem isTerminator_eq_false {character : Char}
    (ordinary : character.toNat = 0x2D ∨ 0x2F < character.toNat ∧
      character.toNat < 0x7F ∧ character.toNat ≠ 0x3A) :
    isTerminator character = false := by
  have distinct (other : Char) (valueNe : character.toNat ≠ other.toNat) :
      character ≠ other := fun equal => valueNe (by rw [equal])
  have notWhite : Text.isWhiteSpace character = false := by
    simp [Text.isWhiteSpace, Text.whiteSpaceRanges]
    omega
  have notPunctuation : isPunctuation character = false := by
    simp only [isPunctuation, List.contains_eq_mem, List.mem_cons,
      List.not_mem_nil, or_false, decide_eq_false_iff_not, not_or]
    refine ⟨?_, ?_, ?_, ?_, ?_, ?_⟩ <;> apply distinct <;> simp <;> omega
  simp [isTerminator, notWhite, notPunctuation]

theorem isTerminator_of_isDigit {character : Char}
    (digit : character.isDigit = true) : isTerminator character = false := by
  have bounds : 0x30 ≤ character.toNat ∧ character.toNat ≤ 0x39 :=
    Char.isDigit_iff_toNat.mp digit
  apply isTerminator_eq_false
  omega

theorem isTerminator_of_isAlpha {character : Char}
    (letter : character.isAlpha = true) : isTerminator character = false := by
  have bounds :
      (decide ('A'.val ≤ character.val ∧ character.val ≤ 'Z'.val) ||
        (decide ('a'.val ≤ character.val) &&
          decide (character.val ≤ 'z'.val))) = true := letter
  simp only [Bool.or_eq_true, Bool.and_eq_true, decide_eq_true_eq,
    UInt32.le_iff_toNat_le, Char.reduceVal, UInt32.reduceToNat] at bounds
  apply isTerminator_eq_false
  simp only [Char.toNat]
  omega

/-! ## Runs -/

/-- The text up to the next terminator. -/
def run (text : List Char) : List Char :=
  text.takeWhile fun character => !isTerminator character

/-- The text from the next terminator on. -/
def afterRun (text : List Char) : List Char :=
  text.dropWhile fun character => !isTerminator character

theorem run_append_afterRun (text : List Char) :
    run text ++ afterRun text = text :=
  List.takeWhile_append_dropWhile

theorem length_afterRun_le (text : List Char) :
    (afterRun text).length ≤ text.length :=
  (List.dropWhile_sublist _).length_le

theorem afterRun_cons {first : Char} (rest : List Char)
    (ordinary : isTerminator first = false) :
    afterRun (first :: rest) = afterRun rest := by
  simp [afterRun, ordinary]

/-- The name that a run spells, or its first character that no name has. -/
def readName (characters : List Char) : Except LexicalFault String :=
  match characters.find? fun character => !isWordCharacter character with
  | some character => .error (.invalidCharacter character)
  | none => .ok (Text.foldCase (String.ofList characters))

/-! ## Items -/

/-- What stands at the front of a text: a token, or nothing for a blank or a
comment, and the text after it. -/
structure Item where
  token? : Option Token
  remaining : List Char
  deriving DecidableEq

/-- A number begins with a digit, or with a minus sign before a digit. -/
def startsNumber (first : Char) (rest : List Char) : Bool :=
  first.isDigit || first = '-' && rest.head?.any Char.isDigit

/-- Read a register name after its mark. -/
def readRegister (instructions : InstructionSet) (rest : List Char) :
    Except LexicalFault Item :=
  match readName (run rest) with
  | .error fault => .error fault
  | .ok name =>
      if (instructions.register? name).isSome then
        .ok ⟨some ⟨.register, name⟩, afterRun rest⟩
      else
        .error (.invalidRegister name)

/-- Read a directive name after its mark. -/
def readDirective (instructions : InstructionSet) (rest : List Char) :
    Except LexicalFault Item :=
  match readName (run rest) with
  | .error fault => .error fault
  | .ok name =>
      if instructions.isDirective name then
        .ok ⟨some ⟨.directive, name⟩, afterRun rest⟩
      else
        .error (.invalidDirective name)

/-- Read a number; its token has the canonical decimal text. -/
def readNumber (text : List Char) : Except LexicalFault Item :=
  match Literal.read (run text) with
  | .error fault => .error fault
  | .ok number => .ok ⟨some ⟨.number, Decimal.write number⟩, afterRun text⟩

/-- Read a word: a label if a colon follows at once, and else an identifier. -/
def readWord (text : List Char) : Except LexicalFault Item :=
  match readName (run text) with
  | .error fault => .error fault
  | .ok name =>
      match afterRun text with
      | ':' :: remaining => .ok ⟨some ⟨.label, name⟩, remaining⟩
      | remaining => .ok ⟨some ⟨.identifier, name⟩, remaining⟩

/-- Read the item at the front of a text that begins with a given character. -/
def readItem (instructions : InstructionSet) (first : Char)
    (rest : List Char) : Except LexicalFault Item :=
  if isBlank first then
    .ok ⟨none, rest⟩
  else if first = '#' then
    .ok ⟨none, rest.dropWhile (· ≠ '\n')⟩
  else if first = ',' then
    .ok ⟨some ⟨.comma, ","⟩, rest⟩
  else if first = '(' then
    .ok ⟨some ⟨.openParen, "("⟩, rest⟩
  else if first = ')' then
    .ok ⟨some ⟨.closeParen, ")"⟩, rest⟩
  else if first = '$' then
    readRegister instructions rest
  else if first = '.' then
    readDirective instructions rest
  else if startsNumber first rest then
    readNumber (first :: rest)
  else if first.isAlpha then
    readWord (first :: rest)
  else
    .error (.invalidCharacter first)

/-! ## Progress

Every item takes at least its first character, so reading items one after
another ends.
-/

theorem isTerminator_of_startsNumber {first : Char} {rest : List Char}
    (starts : startsNumber first rest = true) : isTerminator first = false := by
  simp only [startsNumber, Bool.or_eq_true, Bool.and_eq_true,
    decide_eq_true_eq] at starts
  rcases starts with digit | ⟨rfl, -⟩
  · exact isTerminator_of_isDigit digit
  · exact isTerminator_eq_false (.inl rfl)

theorem remaining_readRegister {instructions : InstructionSet}
    {rest : List Char} {item : Item}
    (read : readRegister instructions rest = .ok item) :
    item.remaining = afterRun rest := by
  unfold readRegister at read
  split at read
  · cases read
  · split at read <;> cases read
    rfl

theorem remaining_readDirective {instructions : InstructionSet}
    {rest : List Char} {item : Item}
    (read : readDirective instructions rest = .ok item) :
    item.remaining = afterRun rest := by
  unfold readDirective at read
  split at read
  · cases read
  · split at read <;> cases read
    rfl

theorem remaining_readNumber {text : List Char} {item : Item}
    (read : readNumber text = .ok item) : item.remaining = afterRun text := by
  unfold readNumber at read
  split at read <;> cases read
  rfl

theorem length_remaining_readWord_le {text : List Char} {item : Item}
    (read : readWord text = .ok item) :
    item.remaining.length ≤ (afterRun text).length := by
  unfold readWord at read
  split at read
  · cases read
  · split at read <;> cases read
    · simp [*]
    · exact Nat.le_refl _

/-- What follows an item is no longer than what follows its first character. -/
theorem length_remaining_readItem_le {instructions : InstructionSet}
    {first : Char} {rest : List Char} {item : Item}
    (read : readItem instructions first rest = .ok item) :
    item.remaining.length ≤ rest.length := by
  unfold readItem at read
  split at read
  · cases read
    exact Nat.le_refl _
  split at read
  · cases read
    exact (List.dropWhile_sublist _).length_le
  iterate 3
    split at read
    · cases read
      exact Nat.le_refl _
  split at read
  · rw [remaining_readRegister read]
    exact length_afterRun_le rest
  split at read
  · rw [remaining_readDirective read]
    exact length_afterRun_le rest
  split at read
  · next starts =>
    rw [remaining_readNumber read,
      afterRun_cons rest (isTerminator_of_startsNumber starts)]
    exact length_afterRun_le rest
  split at read
  · next letter =>
    have bound := length_remaining_readWord_le read
    rw [afterRun_cons rest (isTerminator_of_isAlpha letter)] at bound
    exact Nat.le_trans bound (length_afterRun_le rest)
  · cases read

end MipsAssembler.Source
