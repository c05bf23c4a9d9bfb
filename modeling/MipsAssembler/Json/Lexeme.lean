import MipsAssembler.Json.Value

/-!
# Lexemes of a JSON text

A JSON text is a sequence of marks, words, numbers and strings with white
space between them.  JSON has four white space characters of its own.
-/

namespace MipsAssembler.Json

inductive Lexeme
  | openBrace
  | closeBrace
  | openBracket
  | closeBracket
  | colon
  | comma
  | null
  | bool (value : Bool)
  | number (spelling : String)
  | string (text? : Option String)
  deriving DecidableEq

/-! ## Strings -/

/-- The character that a one-letter escape denotes. -/
def shortEscape? : Char → Option Char
  | '"' => some '"'
  | '\\' => some '\\'
  | '/' => some '/'
  | 'b' => some '\x08'
  | 'f' => some '\x0c'
  | 'n' => some '\n'
  | 'r' => some '\r'
  | 't' => some '\t'
  | _ => none

/-- Read the rest of a string after its opening quote: the code points that it
denotes, in front of them those found before in reverse, and the text after
the closing quote.  An escaped code point may be half a surrogate pair. -/
def stringCodes? : List Char → List Nat → Option (List Nat × List Char)
  | '"' :: rest, codes => some (codes.reverse, rest)
  | '\\' :: 'u' :: first :: second :: third :: fourth :: rest, codes =>
      match Radix.hexadecimal.read? [first, second, third, fourth] with
      | some code => stringCodes? rest (code :: codes)
      | none => none
  | '\\' :: letter :: rest, codes =>
      match shortEscape? letter with
      | some character => stringCodes? rest (character.toNat :: codes)
      | none => none
  | character :: rest, codes =>
      if character = '\\' ∨ character.toNat < 0x20 then
        none
      else
        stringCodes? rest (character.toNat :: codes)
  | [], _ => none

/-- The first half of a surrogate pair. -/
def isHighSurrogate (code : Nat) : Bool :=
  0xD800 ≤ code && code < 0xDC00

/-- The second half of a surrogate pair. -/
def isLowSurrogate (code : Nat) : Bool :=
  0xDC00 ≤ code && code < 0xE000

/-- The characters of a list of code points in which each supplementary
character may be a surrogate pair. -/
def charactersOfCodes? : List Nat → Option (List Char)
  | [] => some []
  | high :: low :: rest =>
      if isHighSurrogate high then
        if isLowSurrogate low then
          (charactersOfCodes? rest).map
            (Char.ofNat (0x10000 + (high - 0xD800) * 0x400 + (low - 0xDC00)) :: ·)
        else
          none
      else if isLowSurrogate high then
        none
      else
        (charactersOfCodes? (low :: rest)).map (Char.ofNat high :: ·)
  | [code] =>
      if isHighSurrogate code || isLowSurrogate code then
        none
      else
        some [Char.ofNat code]

/-! ## Numbers -/

/-- The end of a number after its fraction: nothing, or an exponent. -/
def isExponentPart : List Char → Bool
  | [] => true
  | mark :: rest =>
      (mark = 'e' || mark = 'E') &&
        match rest with
        | '+' :: digits => digits ≠ [] && digits.all Char.isDigit
        | '-' :: digits => digits ≠ [] && digits.all Char.isDigit
        | digits => digits ≠ [] && digits.all Char.isDigit

/-- The end of a number after its integer part. -/
def isFractionPart : List Char → Bool
  | '.' :: rest =>
      (rest.head?.any Char.isDigit) && isExponentPart (rest.dropWhile Char.isDigit)
  | rest => isExponentPart rest

/-- A number without its sign; no other digit follows a leading zero. -/
def isUnsignedNumber : List Char → Bool
  | '0' :: rest => isFractionPart rest
  | first :: rest => first.isDigit && isFractionPart (rest.dropWhile Char.isDigit)
  | [] => false

/-- The characters spell a JSON number. -/
def isNumber : List Char → Bool
  | '-' :: unsigned => isUnsignedNumber unsigned
  | unsigned => isUnsignedNumber unsigned

/-- A character that may stand in a number. -/
def isNumberCharacter (character : Char) : Bool :=
  character.isDigit || ['+', '-', '.', 'e', 'E'].contains character

/-! ## Single lexemes -/

def isSpace (character : Char) : Bool :=
  character = ' ' || character = '\n' || character = '\t' || character = '\r'

/-- The lexeme of a mark. -/
def mark? : Char → Option Lexeme
  | '\x7b' => some .openBrace
  | '\x7d' => some .closeBrace
  | '[' => some .openBracket
  | ']' => some .closeBracket
  | ':' => some .colon
  | ',' => some .comma
  | _ => none

/-- The lexeme of a word. -/
def word? : List Char → Option Lexeme
  | ['n', 'u', 'l', 'l'] => some .null
  | ['t', 'r', 'u', 'e'] => some (.bool true)
  | ['f', 'a', 'l', 's', 'e'] => some (.bool false)
  | _ => none

/-- Read the lexeme that begins with a given character. -/
def lexeme? (first : Char) (rest : List Char) : Option (Lexeme × List Char) :=
  match mark? first with
  | some mark => some (mark, rest)
  | none =>
      if first = '"' then
        (stringCodes? rest []).map fun (codes, remaining) =>
          (.string ((charactersOfCodes? codes).map String.ofList), remaining)
      else if first.isAlpha then
        (word? (first :: rest.takeWhile Char.isAlpha)).map fun word =>
          (word, rest.dropWhile Char.isAlpha)
      else if isNumber (first :: rest.takeWhile isNumberCharacter) then
        some (.number (String.ofList (first :: rest.takeWhile isNumberCharacter)),
          rest.dropWhile isNumberCharacter)
      else
        none

theorem length_stringCodes?_lt {text : List Char} {codes found : List Nat}
    {remaining : List Char}
    (read : stringCodes? text codes = some (found, remaining)) :
    remaining.length < text.length := by
  fun_induction stringCodes? text codes with
  | case1 => simp_all
  | case2 codes first second third fourth rest code _ ih =>
      have := ih read
      simp only [List.length_cons]
      omega
  | case4 codes letter rest _ character _ ih =>
      have := ih read
      simp only [List.length_cons]
      omega
  | case7 codes character rest _ _ _ _ ih =>
      have := ih read
      simp only [List.length_cons]
      omega
  | _ => simp_all

/-- Every lexeme takes at least its first character. -/
theorem length_lexeme?_le {first : Char} {rest : List Char} {lexeme : Lexeme}
    {remaining : List Char}
    (read : lexeme? first rest = some (lexeme, remaining)) :
    remaining.length ≤ rest.length := by
  unfold lexeme? at read
  split at read
  · cases read
    exact Nat.le_refl _
  split at read
  · obtain ⟨⟨codes, after⟩, codesRead, pairEq⟩ := Option.map_eq_some_iff.mp read
    cases pairEq
    exact Nat.le_of_lt (length_stringCodes?_lt codesRead)
  split at read
  · obtain ⟨word, -, pairEq⟩ := Option.map_eq_some_iff.mp read
    cases pairEq
    exact (List.dropWhile_sublist _).length_le
  split at read
  · cases read
    exact (List.dropWhile_sublist _).length_le
  · cases read

/-! ## All lexemes of a text -/

/-- Read lexemes up to the end of a text, after lexemes that were found before
and are kept in reverse. -/
def lexemes? (text : List Char) (found : List Lexeme) : Option (List Lexeme) :=
  match text with
  | [] => some found.reverse
  | first :: rest =>
      if isSpace first then
        lexemes? rest found
      else
        match _ : lexeme? first rest with
        | none => none
        | some (lexeme, remaining) => lexemes? remaining (lexeme :: found)
termination_by text.length
decreasing_by
  · exact Nat.lt_succ_self _
  · exact Nat.lt_succ_of_le (length_lexeme?_le ‹_›)

end MipsAssembler.Json
