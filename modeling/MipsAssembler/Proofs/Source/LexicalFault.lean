import MipsAssembler.Proofs.Source.LetterCase
import MipsAssembler.Proofs.Source.Position
import MipsAssembler.Proofs.Source.TokenText

/-!
# Faults of source texts

A text that is refused can be read up to the position of its error, and the
fault is read off the text that begins there.  A number is quoted up to its
first impossible character, or as a whole if only its value is at fault.
-/

namespace MipsAssembler

open Source

variable {instructions : InstructionSet}

/-! ## Beginnings of numbers -/

namespace Literal

/-- The spelling of some number begins in this way. -/
def IsBeginning (characters : List Char) : Prop :=
  ∃ literal : Literal, literal.IsWellFormed ∧ characters <+: literal.spelling

/-- Digits after a sign and a mark, be there none, begin a number: one more zero
completes it. -/
theorem isBeginning_append {literal : Literal} {taken : List Char}
    (marked : literal.radix.MarkedBy literal.marker)
    (isDigit : ∀ character ∈ taken, literal.radix.isDigit character = true) :
    IsBeginning (literal.lead ++ taken) := by
  refine ⟨{ literal with digits := taken ++ ['0'] },
    ⟨marked, by simp, ?_⟩, ['0'], ?_⟩
  · intro character member
    rcases List.mem_append.mp member with inTaken | isZero
    · exact isDigit character inTaken
    · obtain rfl := List.mem_singleton.mp isZero
      cases literal.radix <;> decide
  · rw [List.append_assoc]
    rfl

/-- Characters that are no mark of a base, up to one that is no digit, are no
mark whatever comes after it. -/
theorem not_isMarked_append {taken more other : List Char} {foreign : Char}
    (isDigit : ∀ character ∈ taken, Radix.decimal.isDigit character = true)
    (notDigit : Radix.decimal.isDigit foreign = false)
    (unmarked : ¬ IsMarked (taken ++ foreign :: more)) :
    ¬ IsMarked (taken ++ foreign :: other) := by
  have letterIsNoDigit : ∀ letter ∈ baseLetters,
      Radix.decimal.isDigit letter = false := by
    intro letter marks
    simp only [baseLetters, List.mem_cons, List.not_mem_nil, or_false] at marks
    rcases marks with rfl | rfl | rfl | rfl <;> rfl
  rintro ⟨letter, marks, digits, split⟩
  rcases taken with - | ⟨zero, - | ⟨second, taken⟩⟩
  · cases split
    cases notDigit
  · cases split
    exact unmarked ⟨foreign, marks, more, rfl⟩
  · cases split
    have digit := isDigit letter (by simp)
    rw [letterIsNoDigit letter marks] at digit
    cases digit

theorem ofUnsigned_foreign {isNegative : Bool} {unsigned taken more : List Char}
    {foreign : Char}
    (digitsEq : (ofUnsigned isNegative unsigned).digits =
      taken ++ foreign :: more)
    (isDigit : ∀ character ∈ taken,
      (ofUnsigned isNegative unsigned).radix.isDigit character = true)
    (notDigit : (ofUnsigned isNegative unsigned).radix.isDigit foreign = false)
    (other : List Char) :
    ofUnsigned isNegative ((ofUnsigned isNegative unsigned).marker ++
        (taken ++ foreign :: other)) =
      { ofUnsigned isNegative unsigned with
        digits := taken ++ foreign :: other } := by
  by_cases marked : IsMarked unsigned
  · obtain ⟨letter, marks, digits, rfl⟩ := marked
    simp only [baseLetters, List.mem_cons, List.not_mem_nil, or_false] at marks
    rcases marks with rfl | rfl | rfl | rfl <;> rfl
  · rw [ofUnsigned_of_not_isMarked isNegative marked]
      at digitsEq isDigit notDigit ⊢
    obtain rfl : unsigned = taken ++ foreign :: more := digitsEq
    exact ofUnsigned_of_not_isMarked isNegative
      (not_isMarked_append isDigit notDigit marked)

theorem isNegative_ofUnsigned (isNegative : Bool) (unsigned : List Char) :
    (ofUnsigned isNegative unsigned).isNegative = isNegative := by
  unfold ofUnsigned
  split <;> rfl

theorem ofSpelling_of_head?_ne {characters : List Char}
    (unsigned : characters.head? ≠ some '-') :
    ofSpelling characters = ofUnsigned false characters := by
  unfold ofSpelling
  split
  · exact absurd rfl unsigned
  · rfl

/-- A spelling may change after a foreign character: what stands ahead of it
is taken apart as before. -/
theorem ofSpelling_foreign {characters taken more : List Char} {foreign : Char}
    (digitsEq : (ofSpelling characters).digits = taken ++ foreign :: more)
    (isDigit : ∀ character ∈ taken,
      (ofSpelling characters).radix.isDigit character = true)
    (notDigit : (ofSpelling characters).radix.isDigit foreign = false)
    (other : List Char) :
    ofSpelling ((ofSpelling characters).lead ++ (taken ++ foreign :: other)) =
      { ofSpelling characters with digits := taken ++ foreign :: other } := by
  by_cases signed : characters.head? = some '-'
  · obtain ⟨unsigned, rfl⟩ := List.head?_eq_some_iff.mp signed
    change ofSpelling ((ofUnsigned true unsigned).lead ++ _) = _
    rw [lead, if_pos (isNegative_ofUnsigned true unsigned)]
    exact ofUnsigned_foreign digitsEq isDigit notDigit other
  · have parts := ofSpelling_of_head?_ne signed
    have whole := spelling_ofSpelling characters
    rw [spelling, digitsEq, parts] at whole
    rw [parts] at digitsEq isDigit notDigit ⊢
    -- The foreign character is the first one at the latest.
    have unsigned : ((ofUnsigned false characters).lead ++
        (taken ++ foreign :: other)).head? ≠ some '-' := by
      rw [← whole] at signed
      simpa [List.head?_append] using signed
    rw [ofSpelling_of_head?_ne unsigned, lead,
      if_neg (by rw [isNegative_ofUnsigned]; decide)]
    exact ofUnsigned_foreign digitsEq isDigit notDigit other

/-- No number begins with digits and a character that is none. -/
theorem not_isBeginning_append {characters taken more : List Char}
    {foreign : Char}
    (digitsEq : (ofSpelling characters).digits = taken ++ foreign :: more)
    (isDigit : ∀ character ∈ taken,
      (ofSpelling characters).radix.isDigit character = true)
    (notDigit : (ofSpelling characters).radix.isDigit foreign = false) :
    ¬ IsBeginning ((ofSpelling characters).lead ++ taken ++ [foreign]) := by
  rintro ⟨literal, formed, other, spellingEq⟩
  have sameParts := ofSpelling_foreign digitsEq isDigit notDigit other
  have spelled : (ofSpelling characters).lead ++ (taken ++ foreign :: other) =
      literal.spelling := by
    rw [← spellingEq]
    simp
  rw [spelled, formed.ofSpelling_spelling] at sameParts
  have digit := formed.isDigit foreign (by simp [sameParts])
  rw [sameParts] at digit
  cases digit.symm.trans notDigit

/-- A spelling without a value is refused for a character that no number has
there, or as a whole. -/
theorem eq_of_read_eq_error {characters : List Char} {fault : LexicalFault}
    (refused : read characters = .error fault) :
    (∃ accepted foreign more, characters = accepted ++ foreign :: more ∧
      IsBeginning accepted ∧ ¬ IsBeginning (accepted ++ [foreign]) ∧
      fault = .invalidIntegerCharacter (String.ofList accepted) foreign) ∨
    (((ofSpelling characters).digits = [] ∨
        ¬ Fits (ofSpelling characters).value) ∧
      fault = .invalidNumber (String.ofList characters)) := by
  have whole := spelling_ofSpelling characters
  unfold read check at refused
  split at refused
  · next foreign more dropped =>
    cases refused
    have digitsEq : (ofSpelling characters).digits =
        (ofSpelling characters).digits.takeWhile
          (ofSpelling characters).radix.isDigit ++ foreign :: more := by
      rw [← dropped, List.takeWhile_append_dropWhile]
    have isDigit := fun character =>
      @List.mem_takeWhile_imp _ (ofSpelling characters).radix.isDigit
        (ofSpelling characters).digits character
    have notDigit : (ofSpelling characters).radix.isDigit foreign = false := by
      have stops := List.head?_dropWhile_not
        (ofSpelling characters).radix.isDigit (ofSpelling characters).digits
      rw [dropped] at stops
      simpa using stops
    refine .inl ⟨_, foreign, more, ?_,
      isBeginning_append (markedBy_ofSpelling characters) isDigit,
      not_isBeginning_append digitsEq isDigit notDigit, rfl⟩
    rw [List.append_assoc, ← digitsEq]
    exact whole.symm
  · split at refused
    · cases refused
    · next unfit =>
      cases refused
      rw [whole]
      exact .inr ⟨by rwa [not_and_or, not_not] at unfit, rfl⟩

end Literal

/-! ## Reading a fault off -/

/-- A word, or a name after its mark, begins in this way. -/
def Source.StartsWord (first : Char) : Prop :=
  first = '$' ∨ first = '.' ∨ first.isAlpha = true

/-- The fault is read off a text that begins with the faulty token. -/
inductive LexicalFault.ReadOff (instructions : InstructionSet) :
    LexicalFault → List Char → Prop
  | firstCharacter (first : Char) (rest : List Char) :
      ReadOff instructions (.invalidCharacter first) (first :: rest)
  /-- The word breaks off at a character that neither belongs to it nor ends
  it. -/
  | laterCharacter (first : Char) (between : List Char) (foreign : Char)
      (rest : List Char) (starts : StartsWord first) (isName : IsName between)
      (notWord : isWordCharacter foreign = false)
      (notTerminator : isTerminator foreign = false) :
      ReadOff instructions (.invalidCharacter foreign)
        (first :: (between ++ foreign :: rest))
  | register (rest : List Char) (isName : IsName (run rest))
      (unknown : instructions.register?
        (Text.foldCase (String.ofList (run rest))) = none) :
      ReadOff instructions
        (.invalidRegister (Text.foldCase (String.ofList (run rest))))
        ('$' :: rest)
  | directive (rest : List Char) (isName : IsName (run rest))
      (unknown : instructions.isDirective
        (Text.foldCase (String.ofList (run rest))) = false) :
      ReadOff instructions
        (.invalidDirective (Text.foldCase (String.ofList (run rest))))
        ('.' :: rest)
  /-- The accepted part of a number cannot be longer. -/
  | foreignDigit (accepted : String) (foreign : Char) (rest : List Char)
      (begins : Literal.IsBeginning accepted.toList)
      (longest : ¬ Literal.IsBeginning (accepted.toList ++ [foreign])) :
      ReadOff instructions (.invalidIntegerCharacter accepted foreign)
        (accepted.toList ++ foreign :: rest)
  | number (text : List Char)
      (unfit : (Literal.ofSpelling (run text)).digits = [] ∨
        ¬ Literal.Fits (Literal.ofSpelling (run text)).value) :
      ReadOff instructions (.invalidNumber (String.ofList (run text))) text

namespace Source

variable {first : Char} {rest : List Char} {fault : LexicalFault}

theorem exists_foreign_of_readName {characters : List Char}
    (refused : readName characters = .error fault) :
    ∃ between foreign more, characters = between ++ foreign :: more ∧
      IsName between ∧ isWordCharacter foreign = false ∧
      fault = .invalidCharacter foreign := by
  unfold readName at refused
  split at refused
  · next foreign found =>
    cases refused
    obtain ⟨notWord, between, more, split, isName⟩ :=
      List.find?_eq_some_iff_append.mp found
    refine ⟨between, foreign, more, split, fun character member => ?_,
      by simpa using notWord, rfl⟩
    simpa using isName character member
  · cases refused

theorem readOff_of_readName (starts : StartsWord first)
    (refused : readName (run rest) = .error fault) :
    fault.ReadOff instructions (first :: rest) := by
  obtain ⟨between, foreign, more, runEq, isName, notWord, rfl⟩ :=
    exists_foreign_of_readName refused
  have notTerminator : isTerminator foreign = false := by
    have member : foreign ∈ run rest := by simp [runEq]
    simpa using List.mem_takeWhile_imp member
  have split := run_append_afterRun rest
  rw [runEq, List.append_assoc, List.cons_append] at split
  rw [← split]
  exact .laterCharacter first between foreign _ starts isName notWord
    notTerminator

theorem readOff_of_readRegister
    (refused : readRegister instructions rest = .error fault) :
    fault.ReadOff instructions ('$' :: rest) := by
  unfold readRegister at refused
  split at refused
  · next nameRefused =>
    cases refused
    exact readOff_of_readName (.inl rfl) nameRefused
  next name nameRead =>
  split at refused
  · cases refused
  · next unknown =>
    cases refused
    obtain ⟨isName, rfl⟩ := readName_eq_ok_iff.mp nameRead
    exact .register rest isName (Option.not_isSome_iff_eq_none.mp unknown)

theorem readOff_of_readDirective
    (refused : readDirective instructions rest = .error fault) :
    fault.ReadOff instructions ('.' :: rest) := by
  unfold readDirective at refused
  split at refused
  · next nameRefused =>
    cases refused
    exact readOff_of_readName (.inr (.inl rfl)) nameRefused
  next name nameRead =>
  split at refused
  · cases refused
  · next unknown =>
    cases refused
    obtain ⟨isName, rfl⟩ := readName_eq_ok_iff.mp nameRead
    exact .directive rest isName (Bool.not_eq_true _ ▸ unknown)

theorem readOff_of_readNumber {text : List Char}
    (refused : readNumber text = .error fault) :
    fault.ReadOff instructions text := by
  unfold readNumber at refused
  split at refused
  · next literalRefused =>
    cases refused
    rcases Literal.eq_of_read_eq_error literalRefused with
      ⟨accepted, foreign, more, runEq, begins, longest, rfl⟩ | ⟨unfit, rfl⟩
    · have split := run_append_afterRun text
      rw [runEq, List.append_assoc, List.cons_append] at split
      rw [← split]
      rw [← String.toList_ofList (l := accepted)] at begins longest
      have readOff := @LexicalFault.ReadOff.foreignDigit instructions _ foreign
        (more ++ afterRun text) begins longest
      rwa [String.toList_ofList] at readOff
    · exact .number text unfit
  · cases refused

theorem readOff_of_readWord (letter : first.isAlpha = true)
    (refused : readWord (first :: rest) = .error fault) :
    fault.ReadOff instructions (first :: rest) := by
  have isWord : isWordCharacter first = true := by
    simp [isWordCharacter, Char.isAlphanum, letter]
  have runEq : run (first :: rest) = first :: run rest := by
    simp [run, isTerminator_of_isAlpha letter]
  unfold readWord at refused
  rw [runEq] at refused
  split at refused
  · next nameRefused =>
    cases refused
    apply readOff_of_readName (.inr (.inr letter))
    -- The first character belongs to the word, so a later one is at fault.
    unfold readName at nameRefused ⊢
    rw [List.find?_cons_of_neg (by simp [isWord])] at nameRefused
    split at nameRefused
    · exact nameRefused
    · cases nameRefused
  · split at refused <;> cases refused

/-- What is refused at the front of a text is read off this text. -/
theorem readOff_of_readItem
    (refused : readItem instructions first rest = .error fault) :
    fault.ReadOff instructions (first :: rest) := by
  unfold readItem at refused
  iterate 5
    split at refused
    · cases refused
  split at refused
  · next mark =>
    subst mark
    exact readOff_of_readRegister refused
  split at refused
  · next mark =>
    subst mark
    exact readOff_of_readDirective refused
  split at refused
  · exact readOff_of_readNumber refused
  split at refused
  · next letter => exact readOff_of_readWord letter refused
  · cases refused
    exact .firstCharacter first rest

/-! ## The text ahead of a fault -/

theorem Piece.EndsBefore.of_append {piece : Piece} {text more : List Char}
    (ends : piece.EndsBefore (text ++ more)) : piece.EndsBefore text := by
  cases text with
  | cons character text => exact ends
  | nil =>
      cases piece with
      | blank character => trivial
      | comment content => exact nofun
      | lexeme token characters => exact ends_nil _

/-- The text ahead of the first fault can be decomposed. -/
theorem exists_isDecomposition_of_readItems_eq_error {text : List Char}
    {found : List Token} {refusal : Refusal}
    (failed : readItems instructions text found = .error refusal) :
    ∃ pieces before first rest, text = before ++ first :: rest ∧
      refusal.remaining = first :: rest ∧
      IsDecomposition instructions pieces before ∧
      readItem instructions first rest = .error refusal.fault := by
  induction size : text.length using Nat.strongRecOn
    generalizing text found with
  | ind count ih =>
      cases text with
      | nil => simp [readItems] at failed
      | cons first rest =>
          rw [readItems_cons] at failed
          split at failed
          · next itemRefused =>
            cases failed
            exact ⟨[], [], first, rest, rfl, rfl, .nil, itemRefused⟩
          next item itemRead =>
          have shorter : item.remaining.length < count := by
            have bound := length_remaining_readItem_le itemRead
            rw [← size, List.length_cons]
            omega
          obtain ⟨pieces, before, faulty, later, split, remainingEq,
            decomposition, refused⟩ := ih _ shorter failed rfl
          obtain ⟨piece, isFirst⟩ := exists_isFirst_of_readItem itemRead
          have ends := isFirst.ends
          rw [split] at ends
          refine ⟨piece :: pieces, piece.characters ++ before, faulty, later, ?_,
            remainingEq, .cons isFirst.valid ends.of_append decomposition,
            refused⟩
          rw [List.append_assoc, ← split, isFirst.split]

end Source

/-- A text that is refused can be read up to one offset, the only one at the
position of the error.  No blank, comment or lexeme begins there, and the fault
is read off the text from there on. -/
theorem Token.readOff_of_ofSource {source : String} {error : LexicalError}
    (failed : Token.ofSource instructions source = .error error) :
    ∃ offset < source.toList.length,
      (∀ other ≤ source.toList.length,
        error.position = Position.counted (source.toList.take other) ↔
          other = offset) ∧
      (∃ tokens, Token.ofSource instructions
        (String.ofList (source.toList.take offset)) = .ok tokens) ∧
      (∀ (piece : Piece) (item : Item),
        ¬ piece.IsFirst instructions (source.toList.drop offset) item) ∧
      error.fault.ReadOff instructions (source.toList.drop offset) := by
  unfold Token.ofSource at failed
  split at failed
  · cases failed
  next refusal itemsRefused =>
  cases failed
  obtain ⟨pieces, before, first, rest, sourceEq, remainingEq, decomposition,
    refused⟩ := exists_isDecomposition_of_readItems_eq_error itemsRefused
  have position : positionOf source.toList refusal.remaining =
      Position.counted (source.toList.take before.length) := by
    rw [positionOf, remainingEq, Position.after_eq_counted, sourceEq]
    simp
  refine ⟨before.length, ?_, fun other inside => ?_, ?_, ?_, ?_⟩
  · simp [sourceEq]
  · rw [position, eq_comm]
    exact Position.counted_take_inj inside (by simp [sourceEq])
  · rw [sourceEq, List.take_left]
    refine ⟨pieces.filterMap Piece.token?, ofSource_of_layout ?_⟩
    rw [String.toList_ofList]
    exact decomposition.layout
  · rw [sourceEq, List.drop_left]
    intro piece item isFirst
    obtain ⟨_, _, consEq, itemRead⟩ := isFirst.exists_readItem
    cases consEq
    cases refused.symm.trans itemRead
  · rw [sourceEq, List.drop_left]
    exact readOff_of_readItem refused

/-! ### A fault on a second line -/

namespace ForeignHexadecimalDigit

def source : String :=
  "main: # é\n\tlui $t0,\r-0x1G,"

def error : LexicalError :=
  ⟨.invalidIntegerCharacter "-0x1" 'G', ⟨2, 11⟩⟩

theorem failed :
    Token.ofSource Mips32.instructionSet source = .error error := by
  decide +kernel

/-- The tab and the carriage return take one column each, and what stands ahead
of the number can be read. -/
theorem quotes_number :
    Token.ofSource Mips32.instructionSet source = .error error ∧
      Position.counted (source.toList.take 20) = error.position ∧
      source.toList.drop 20 = "-0x1".toList ++ 'G' :: [','] ∧
      (∃ tokens, Token.ofSource Mips32.instructionSet
        (String.ofList (source.toList.take 20)) = .ok tokens) ∧
      Literal.IsBeginning "-0x1".toList ∧
      ¬ Literal.IsBeginning ("-0x1".toList ++ ['G']) := by
  obtain ⟨offset, -, only, ahead, -, readOff⟩ := Token.readOff_of_ofSource failed
  have position : error.position = Position.counted (source.toList.take 20) := by
    decide +kernel
  obtain rfl : 20 = offset := (only 20 (by decide +kernel)).mp position
  have begins : source.toList.drop 20 = "-0x1".toList ++ 'G' :: [','] := by
    decide +kernel
  refine ⟨failed, position.symm, begins, ahead, ?_⟩
  generalize source.toList.drop 20 = text at readOff
  cases readOff with
  | foreignDigit _ _ rest begins longest => exact ⟨begins, longest⟩

end ForeignHexadecimalDigit

end MipsAssembler
