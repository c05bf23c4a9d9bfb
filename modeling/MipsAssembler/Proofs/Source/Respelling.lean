import MipsAssembler.Proofs.Source.Lines

/-!
# Numbers at a place of a text

Pieces that are over where one number begins are over where any other does.  So
a number in a text can be exchanged for another one and the text is read as
before, or is refused at that number if its value does not fit.  How a number
is spelled does not matter to the tokens, only its value does.
-/

namespace MipsAssembler

open Source

variable {instructions : InstructionSet}

namespace Literal.IsWellFormed

variable {literal : Literal}

/-- If its value does not fit, a literal is quoted as it is spelled. -/
theorem read_spelling_of_not_fits (formed : literal.IsWellFormed)
    (unfit : ¬ Fits literal.value) :
    read literal.spelling =
      .error (.invalidNumber (String.ofList literal.spelling)) := by
  have allDigits : literal.digits.dropWhile literal.radix.isDigit = [] :=
    List.dropWhile_eq_nil_iff.mpr formed.isDigit
  rw [read, formed.ofSpelling_spelling, check, allDigits]
  exact if_neg fun accepted => unfit accepted.2

end Literal.IsWellFormed

namespace Source

/-! ## Pieces ahead of a number -/

theorem not_atTerminator_spelling {literal : Literal}
    (formed : literal.IsWellFormed) (rest : List Char) :
    ¬ AtTerminator (literal.spelling ++ rest) := by
  obtain ⟨first, tail, consEq, starts⟩ := startsNumber_spelling formed rest
  intro terminates
  rw [consEq] at terminates
  have isTerminator := terminates first rfl
  rw [isTerminator_of_startsNumber starts] at isTerminator
  cases isTerminator

namespace Piece

variable {piece : Piece} {text : List Char}

/-- A piece that need not be followed by a terminator may be followed by
anything. -/
theorem EndsBefore.of_not_atTerminator (ends : piece.EndsBefore text)
    (ordinary : ¬ AtTerminator text) (other : List Char) :
    piece.EndsBefore other := by
  cases piece with
  | blank character => trivial
  | comment content =>
      refine absurd (fun character atHead => ?_) ordinary
      obtain rfl := ends character atHead
      decide
  | lexeme token characters =>
      obtain ⟨kind, name⟩ := token
      cases kind with
      | comma | openParen | closeParen | label => trivial
      | register | directive | number => exact absurd ends ordinary
      | identifier => exact absurd ends.1 ordinary

theorem EndsBefore.append_of_not_atTerminator {more : List Char}
    (ends : piece.EndsBefore (text ++ more)) (ordinary : ¬ AtTerminator more)
    (other : List Char) : piece.EndsBefore (text ++ other) := by
  cases text with
  | nil => exact ends.of_not_atTerminator ordinary other
  | cons character text => exact ends

theorem characters_ne_nil (valid : piece.IsValid instructions)
    (ends : piece.EndsBefore text) : piece.characters ≠ [] := by
  have endsAtEnd : piece.EndsBefore [] := EndsBefore.of_append ends
  have nonempty := append_ne_nil valid endsAtEnd
  rwa [List.append_nil] at nonempty

/-- A piece at the front of a text is read first. -/
theorem readItems_append (valid : piece.IsValid instructions)
    (ends : piece.EndsBefore text) (found : List Token) :
    readItems instructions (piece.characters ++ text) found =
      readItems instructions text (piece.token?.toList ++ found) := by
  obtain ⟨first, rest, consEq, itemRead⟩ :=
    (isFirst_append valid ends).exists_readItem
  rw [consEq, readItems_cons, itemRead]

end Piece

namespace IsDecomposition

variable {ahead behind : List Piece} {piece : Piece} {text : List Char}

theorem of_cons
    (decomposition : IsDecomposition instructions (piece :: behind)
      (piece.characters ++ text)) :
    piece.IsValid instructions ∧ piece.EndsBefore text ∧
      IsDecomposition instructions behind text := by
  generalize wholeEq : piece.characters ++ text = whole at decomposition
  cases decomposition with
  | cons valid ends rest =>
      obtain rfl := List.append_cancel_left wholeEq
      exact ⟨valid, ends, rest⟩

theorem of_append
    (decomposition : IsDecomposition instructions (ahead ++ behind)
      (ahead.flatMap Piece.characters ++ text)) :
    IsDecomposition instructions behind text := by
  induction ahead with
  | nil => exact decomposition
  | cons piece ahead ih =>
      rw [List.cons_append, List.flatMap_cons, List.append_assoc]
        at decomposition
      exact ih decomposition.of_cons.2.2

/-- The pieces ahead of a number are read alike if any other text stands in its
place. -/
theorem readItems_ahead
    (decomposition : IsDecomposition instructions (ahead ++ behind)
      (ahead.flatMap Piece.characters ++ text))
    (ordinary : ¬ AtTerminator text) (other : List Char) (found : List Token) :
    readItems instructions (ahead.flatMap Piece.characters ++ other) found =
      readItems instructions other
        ((ahead.filterMap Piece.token?).reverse ++ found) := by
  induction ahead generalizing found with
  | nil => rfl
  | cons piece ahead ih =>
      rw [List.cons_append, List.flatMap_cons, List.append_assoc]
        at decomposition
      obtain ⟨valid, ends, rest⟩ := decomposition.of_cons
      rw [List.flatMap_cons, List.append_assoc, Piece.readItems_append valid
        (ends.append_of_not_atTerminator ordinary other), ih rest]
      cases tokenEq : piece.token? <;> simp [tokenEq]

end IsDecomposition

/-! ## A number at a place -/

theorem readItems_spelling {literal : Literal} {text : List Char}
    (formed : literal.IsWellFormed) (fits : Literal.Fits literal.value)
    (ends : AtTerminator text) (found : List Token) :
    readItems instructions (literal.spelling ++ text) found =
      readItems instructions text
        (⟨.number, Decimal.write literal.value⟩ :: found) := by
  have valid : (Piece.lexeme ⟨.number, Decimal.write literal.value⟩
      literal.spelling).IsValid instructions := .number literal formed fits
  exact Piece.readItems_append valid ends found

/-- The number zero. -/
def Piece.zero : Piece :=
  .lexeme ⟨.number, "0"⟩ ['0']

theorem Piece.not_atTerminator_zero (text : List Char) :
    ¬ AtTerminator (Piece.zero.characters ++ text) :=
  not_atTerminator_spelling (Literal.ofInt_isWellFormed 0) text

/-- The text with a number between the pieces. -/
def textAround (ahead behind : List Piece) (literal : Literal) : String :=
  String.ofList (ahead.flatMap Piece.characters ++
    (literal.spelling ++ behind.flatMap Piece.characters))

/-- With a zero between them the pieces are those of a text, so a number may be
written there. -/
def IsNumberPlace (instructions : InstructionSet) (ahead behind : List Piece) :
    Prop :=
  IsDecomposition instructions (ahead ++ .zero :: behind)
    (ahead.flatMap Piece.characters ++
      (Piece.zero.characters ++ behind.flatMap Piece.characters))

namespace IsNumberPlace

variable {ahead behind : List Piece} {literal : Literal}

theorem readItems_ahead (place : IsNumberPlace instructions ahead behind)
    (other : List Char) :
    readItems instructions (ahead.flatMap Piece.characters ++ other) [] =
      readItems instructions other (ahead.filterMap Piece.token?).reverse := by
  rw [IsDecomposition.readItems_ahead place
    (Piece.not_atTerminator_zero _) other, List.append_nil]

theorem readItems_behind (place : IsNumberPlace instructions ahead behind)
    (found : List Token) :
    AtTerminator (behind.flatMap Piece.characters) ∧
      readItems instructions (behind.flatMap Piece.characters) found =
        .ok (found.reverse ++ behind.filterMap Piece.token?) := by
  obtain ⟨-, ends, decomposition⟩ :=
    (IsDecomposition.of_append place).of_cons
  exact ⟨ends, decomposition.layout.readItems found⟩

/-- A number that fits is read, whatever its value and its spelling. -/
theorem ofSource_of_fits (place : IsNumberPlace instructions ahead behind)
    (formed : literal.IsWellFormed) (fits : Literal.Fits literal.value) :
    Token.ofSource instructions (textAround ahead behind literal) =
      .ok (ahead.filterMap Piece.token? ++
        ⟨.number, Decimal.write literal.value⟩ ::
          behind.filterMap Piece.token?) := by
  obtain ⟨ends, -⟩ := place.readItems_behind []
  rw [Token.ofSource_eq_ok_iff_readItems, textAround, String.toList_ofList,
    place.readItems_ahead, readItems_spelling formed fits ends,
    (place.readItems_behind _).2]
  simp

/-- A number that does not fit is the first fault of the text. -/
theorem ofSource_of_not_fits (place : IsNumberPlace instructions ahead behind)
    (formed : literal.IsWellFormed) (unfit : ¬ Literal.Fits literal.value) :
    Token.ofSource instructions (textAround ahead behind literal) =
      .error ⟨.invalidNumber (String.ofList literal.spelling),
        .counted (ahead.flatMap Piece.characters)⟩ := by
  obtain ⟨ends, -⟩ := place.readItems_behind []
  obtain ⟨first, tail, consEq, starts⟩ :=
    startsNumber_spelling formed (behind.flatMap Piece.characters)
  have refused : readItem instructions first tail =
      .error (.invalidNumber (String.ofList literal.spelling)) := by
    rw [readItem_of_startsNumber starts, ← consEq, readNumber,
      run_append (isTerminator_of_mem_spelling formed) ends,
      formed.read_spelling_of_not_fits unfit]
  rw [Token.ofSource_eq_error_iff_readItems]
  refine ⟨ahead.flatMap Piece.characters,
    ⟨.invalidNumber (String.ofList literal.spelling), first :: tail⟩, ?_, ?_,
    rfl⟩
  · rw [textAround, String.toList_ofList, place.readItems_ahead, consEq,
      readItems_cons, refused]
  · rw [textAround, String.toList_ofList, consEq]

/-- A number may be all of a text. -/
theorem nil : IsNumberPlace instructions [] [] :=
  .cons (.number (.ofInt 0) (Literal.ofInt_isWellFormed 0) (by decide))
    nofun .nil

end IsNumberPlace

/-! ## Other spellings -/

/-- The texts differ in the spellings of numbers that fit, and in nothing
else. -/
inductive Respelled (instructions : InstructionSet) :
    List Char → List Char → Prop
  | same (text : List Char) : Respelled instructions text text
  | piece {piece : Piece} {text other : List Char}
      (valid : piece.IsValid instructions) (ends : piece.EndsBefore text)
      (rest : Respelled instructions text other) :
      Respelled instructions (piece.characters ++ text)
        (piece.characters ++ other)
  | number {literal otherLiteral : Literal} {text other : List Char}
      (formed : literal.IsWellFormed) (otherFormed : otherLiteral.IsWellFormed)
      (fits : Literal.Fits literal.value)
      (sameValue : otherLiteral.value = literal.value)
      (ends : AtTerminator text) (rest : Respelled instructions text other) :
      Respelled instructions (literal.spelling ++ text)
        (otherLiteral.spelling ++ other)

namespace Respelled

variable {text other : List Char}

/-- A piece that is over where the one text begins is over where the other
does. -/
theorem endsBefore (respelled : Respelled instructions text other)
    {piece : Piece} (ends : piece.EndsBefore text) :
    piece.EndsBefore other := by
  cases respelled with
  | same => exact ends
  | @piece first text other valid firstEnds rest =>
      cases charactersEq : first.characters with
      | nil =>
          exact absurd charactersEq (Piece.characters_ne_nil valid firstEnds)
      | cons character characters =>
          rw [charactersEq] at ends
          exact ends
  | number formed otherFormed fits sameValue atEnd rest =>
      exact ends.of_not_atTerminator (not_atTerminator_spelling formed _) _

/-- Texts that differ in spellings only have the same tokens, or the same
fault. -/
theorem readItems_eq (respelled : Respelled instructions text other)
    (found : List Token) :
    (readItems instructions text found).mapError Refusal.fault =
      (readItems instructions other found).mapError Refusal.fault := by
  induction respelled generalizing found with
  | same => rfl
  | piece valid ends rest ih =>
      rw [Piece.readItems_append valid ends,
        Piece.readItems_append valid (rest.endsBefore ends), ih]
  | @number literal otherLiteral text other formed otherFormed fits sameValue
      ends rest ih =>
      have numberEnds : (Piece.lexeme ⟨.number, ""⟩ []).EndsBefore text := ends
      have otherEnds : AtTerminator other := rest.endsBefore numberEnds
      have otherFits : Literal.Fits otherLiteral.value := by rwa [sameValue]
      rw [readItems_spelling formed fits ends,
        readItems_spelling otherFormed otherFits otherEnds, sameValue, ih]

end Respelled

/-- Texts are respelled if numbers behind the same pieces are. -/
theorem IsDecomposition.respelled_ahead {ahead behind : List Piece}
    {text first second : List Char}
    (decomposition : IsDecomposition instructions (ahead ++ behind)
      (ahead.flatMap Piece.characters ++ text))
    (ordinary : ¬ AtTerminator text)
    (respelled : Respelled instructions first second) :
    Respelled instructions (ahead.flatMap Piece.characters ++ first)
      (ahead.flatMap Piece.characters ++ second) := by
  induction ahead with
  | nil => exact respelled
  | cons piece ahead ih =>
      rw [List.cons_append, List.flatMap_cons, List.append_assoc]
        at decomposition
      obtain ⟨valid, ends, rest⟩ := decomposition.of_cons
      rw [List.flatMap_cons, List.append_assoc, List.append_assoc]
      exact .piece valid (ends.append_of_not_atTerminator ordinary first)
        (ih rest)

theorem IsNumberPlace.respelled {ahead behind : List Piece}
    {literal other : Literal} (place : IsNumberPlace instructions ahead behind)
    (formed : literal.IsWellFormed) (otherFormed : other.IsWellFormed)
    (fits : Literal.Fits literal.value)
    (sameValue : other.value = literal.value) :
    Respelled instructions (textAround ahead behind literal).toList
      (textAround ahead behind other).toList := by
  obtain ⟨ends, -⟩ := place.readItems_behind []
  rw [textAround, textAround, String.toList_ofList, String.toList_ofList]
  exact IsDecomposition.respelled_ahead place (Piece.not_atTerminator_zero _)
    (.number formed otherFormed fits sameValue ends (.same _))

end Source

theorem Token.ofSource_spelling_eq_ok_iff {literal : Literal}
    (formed : literal.IsWellFormed) {text : String} :
    ofSource instructions (String.ofList literal.spelling) =
        .ok [⟨.number, text⟩] ↔
      Literal.Fits literal.value ∧ text = Decimal.write literal.value := by
  have alone : textAround [] [] literal = String.ofList literal.spelling := by
    simp [textAround]
  rw [← alone]
  by_cases fits : Literal.Fits literal.value
  · rw [IsNumberPlace.nil.ofSource_of_fits formed fits]
    simp [fits, eq_comm]
  · rw [IsNumberPlace.nil.ofSource_of_not_fits formed fits]
    simp [fits]

/-- Texts that differ in spellings only have the same tokens, or the same fault
at some position. -/
theorem Token.ofSource_of_respelled {source other : String}
    (respelled : Respelled instructions source.toList other.toList) :
    (ofSource instructions source).mapError LexicalError.fault =
      (ofSource instructions other).mapError LexicalError.fault := by
  have same := respelled.readItems_eq []
  have fromItems (text : String) :
      (ofSource instructions text).mapError LexicalError.fault =
        (readItems instructions text.toList []).mapError Refusal.fault := by
    unfold ofSource
    cases readItems instructions text.toList [] <;> rfl
  rw [fromItems, fromItems, same]

end MipsAssembler
