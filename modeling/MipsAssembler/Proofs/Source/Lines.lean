import MipsAssembler.Proofs.Source.LexicalFault

/-!
# Texts of several lines

No lexeme goes on beyond the end of a line, with or without a comment there,
and neither does a comment.  So texts can be read on their own and then put one
below the other: the first fault of either is a fault of the whole, and the
lines of the second are counted on from those of the first.
-/

namespace MipsAssembler

open Source

variable {instructions : InstructionSet}

namespace Source

/-! ## Items ahead of a terminator -/

section Terminator

variable {more : List Char}

theorem run_append_of_atTerminator (ends : AtTerminator more)
    (text : List Char) : run (text ++ more) = run text := by
  apply Text.takeWhile_append_of_head?
  intro character atHead
  rw [ends character atHead, Bool.not_true]

theorem afterRun_append_of_atTerminator (ends : AtTerminator more)
    (text : List Char) : afterRun (text ++ more) = afterRun text ++ more := by
  apply Text.dropWhile_append_of_head?
  intro character atHead
  rw [ends character atHead, Bool.not_true]

/-- What is read of an item if the text goes on. -/
def Item.extend (more : List Char) (item : Item) : Item :=
  ⟨item.token?, item.remaining ++ more⟩

theorem readRegister_append (ends : AtTerminator more) (rest : List Char) :
    readRegister instructions (rest ++ more) =
      (readRegister instructions rest).map (Item.extend more) := by
  unfold readRegister
  rw [run_append_of_atTerminator ends, afterRun_append_of_atTerminator ends]
  cases readName (run rest) with
  | error fault => rfl
  | ok name =>
      dsimp only
      split <;> rfl

theorem readDirective_append (ends : AtTerminator more) (rest : List Char) :
    readDirective instructions (rest ++ more) =
      (readDirective instructions rest).map (Item.extend more) := by
  unfold readDirective
  rw [run_append_of_atTerminator ends, afterRun_append_of_atTerminator ends]
  cases readName (run rest) with
  | error fault => rfl
  | ok name =>
      dsimp only
      split <;> rfl

theorem readNumber_append (ends : AtTerminator more) (text : List Char) :
    readNumber (text ++ more) = (readNumber text).map (Item.extend more) := by
  unfold readNumber
  rw [run_append_of_atTerminator ends, afterRun_append_of_atTerminator ends]
  cases Literal.read (run text) <;> rfl

theorem readWord_append (ends : Ends .identifier more) (text : List Char) :
    readWord (text ++ more) = (readWord text).map (Item.extend more) := by
  unfold readWord
  rw [run_append_of_atTerminator ends.1, afterRun_append_of_atTerminator ends.1]
  cases readName (run text) with
  | error fault => rfl
  | ok name =>
      cases afterRun text with
      | nil =>
          dsimp only [List.nil_append]
          split
          · exact absurd rfl ends.2
          · rfl
      | cons first rest =>
          by_cases colon : first = ':'
          · subst colon
            rfl
          · simp [colon, Except.map, Item.extend]

theorem startsNumber_append (ends : AtTerminator more) (first : Char)
    (rest : List Char) :
    startsNumber first (rest ++ more) = startsNumber first rest := by
  cases rest with
  | cons second rest => rfl
  | nil =>
      have notDigit : more.head?.any Char.isDigit = false := by
        rw [Option.any_eq_false]
        intro character atHead
        rw [Bool.eq_false_iff]
        intro digit
        have terminates := ends character atHead
        rw [isTerminator_of_isDigit digit] at terminates
        cases terminates
      simp [startsNumber, notDigit]

/-- An item that is no comment is read alike if the text goes on with a
terminator other than a colon. -/
theorem readItem_append (ends : Ends .identifier more) {first : Char}
    (noComment : first ≠ '#') (rest : List Char) :
    readItem instructions first (rest ++ more) =
      (readItem instructions first rest).map (Item.extend more) := by
  unfold readItem
  rw [startsNumber_append ends.1, readRegister_append ends.1,
    readDirective_append ends.1, ← List.cons_append, readNumber_append ends.1,
    readWord_append ends, if_neg noComment, if_neg noComment]
  simp only [apply_ite (Except.map (Item.extend more))]
  rfl

end Terminator

/-! ## Line ends -/

/-- A line ends with a line feed, and there may be a comment ahead of it. -/
inductive IsLineEnd : List Char → Prop
  | lineFeed : IsLineEnd ['\n']
  | comment (content : List Char) (oneLine : '\n' ∉ content) :
      IsLineEnd ('#' :: (content ++ ['\n']))

namespace IsLineEnd

variable {ending : List Char}

/-- A lexeme of any kind ends where its line ends. -/
theorem ends (isLineEnd : IsLineEnd ending) (below : List Char) :
    Ends .identifier (ending ++ below) := by
  cases isLineEnd with
  | lineFeed | comment => exact ⟨atTerminator_cons (by decide) _, nofun⟩

/-- A comment that is open at the end of a line goes on to the line feed. -/
theorem dropWhile_append (isLineEnd : IsLineEnd ending) (below : List Char) :
    (ending ++ below).dropWhile (· ≠ '\n') = '\n' :: below := by
  cases isLineEnd with
  | lineFeed => rfl
  | comment content oneLine =>
      have skipped : ∀ character ∈ '#' :: content,
          decide (character ≠ '\n') = true := by
        intro character member
        apply decide_eq_true
        rintro rfl
        simp [oneLine] at member
      rw [List.cons_append, List.append_assoc, ← List.cons_append]
      exact Text.dropWhile_append_of_stops skipped (by simp)

theorem readItems_lineFeed_cons (below : List Char) (found : List Token) :
    readItems instructions ('\n' :: below) found =
      readItems instructions below found := by
  rw [readItems_cons, readItem_of_isBlank rfl]
  rfl

theorem readItems_append (isLineEnd : IsLineEnd ending) (below : List Char)
    (found : List Token) :
    readItems instructions (ending ++ below) found =
      readItems instructions below found := by
  have skipped := isLineEnd.dropWhile_append below
  rw [← readItems_lineFeed_cons below]
  cases isLineEnd with
  | lineFeed => rfl
  | comment content oneLine =>
      rw [← skipped]
      exact readItems_cons ..

end IsLineEnd

/-- Reading goes on below a text that is read to its end, and stops at a fault
as if nothing came below. -/
theorem readItems_append_lineEnd {ending : List Char}
    (isLineEnd : IsLineEnd ending) (text below : List Char)
    (found : List Token) :
    readItems instructions (text ++ (ending ++ below)) found =
      match readItems instructions text found with
      | .error refusal =>
          .error ⟨refusal.fault, refusal.remaining ++ (ending ++ below)⟩
      | .ok tokens => readItems instructions below tokens.reverse := by
  induction size : text.length using Nat.strongRecOn
    generalizing text found with
  | ind count ih =>
      cases text with
      | nil => simp [isLineEnd.readItems_append, readItems]
      | cons first rest =>
          have goesOn {remaining : List Char}
              (bound : remaining.length ≤ rest.length) :=
            ih remaining.length (by rw [← size]; exact Nat.lt_succ_of_le bound)
              remaining
          rw [List.cons_append, readItems_cons, readItems_cons]
          by_cases comment : first = '#'
          · subst comment
            have read (text : List Char) : readItem instructions '#' text =
                .ok ⟨none, text.dropWhile (· ≠ '\n')⟩ := rfl
            rw [read, read]
            dsimp only
            rw [List.dropWhile_append, isLineEnd.dropWhile_append]
            split
            · next onLastLine =>
              rw [List.isEmpty_iff.mp onLastLine]
              simp [IsLineEnd.readItems_lineFeed_cons, readItems]
            · exact goesOn (List.dropWhile_sublist _).length_le _ rfl
          · rw [readItem_append (isLineEnd.ends below) comment]
            cases itemRead : readItem instructions first rest with
            | error fault => rfl
            | ok item =>
                exact goesOn (length_remaining_readItem_le itemRead) _ rfl

/-- Tokens that were found before only stand ahead of the others. -/
theorem readItems_eq_map (text : List Char) (found : List Token) :
    readItems instructions text found =
      (readItems instructions text []).map (found.reverse ++ ·) := by
  induction size : text.length using Nat.strongRecOn
    generalizing text found with
  | ind count ih =>
      cases text with
      | nil => simp [readItems, Except.map]
      | cons first rest =>
          rw [readItems_cons, readItems_cons]
          cases itemRead : readItem instructions first rest with
          | error fault => rfl
          | ok item =>
              have shorter : item.remaining.length < count := by
                have bound := length_remaining_readItem_le itemRead
                rw [← size, List.length_cons]
                omega
              dsimp only
              rw [ih _ shorter _ (item.token?.toList ++ found) rfl,
                ih _ shorter _ (item.token?.toList ++ []) rfl]
              cases readItems instructions item.remaining [] <;>
                simp [Except.map]

/-! ## Positions below a line -/

theorem positionOf_append (before remaining : List Char) :
    positionOf (before ++ remaining) remaining = .counted before := by
  simp [positionOf, Position.after_eq_counted]

theorem exists_append_of_readItems_eq_error {text : List Char}
    {found : List Token} {refusal : Refusal}
    (failed : readItems instructions text found = .error refusal) :
    ∃ before, text = before ++ refusal.remaining := by
  obtain ⟨-, before, first, rest, textEq, remainingEq, -, -⟩ :=
    exists_isDecomposition_of_readItems_eq_error failed
  exact ⟨before, by rw [remainingEq, textEq]⟩

/-- Below a line, columns are counted afresh and lines are counted on. -/
theorem IsLineEnd.counted_append {ending : List Char}
    (isLineEnd : IsLineEnd ending) (text more : List Char) :
    Position.counted (text ++ (ending ++ more)) =
      ⟨(Position.counted more).line + text.count '\n' + 1,
        (Position.counted more).column⟩ := by
  obtain ⟨comment, endingEq, oneLine⟩ :
      ∃ comment, ending = comment ++ ['\n'] ∧ '\n' ∉ comment := by
    cases isLineEnd with
    | lineFeed => exact ⟨[], rfl, by simp⟩
    | comment content oneLine => exact ⟨'#' :: content, rfl, by simp [oneLine]⟩
  rw [endingEq, List.append_assoc, List.singleton_append, ← List.append_assoc,
    Position.counted_append_lineFeed, List.count_append,
    List.count_eq_zero.mpr oneLine]
  rfl

end Source

namespace Token

theorem ofSource_eq_ok_iff_readItems {source : String} {tokens : List Token} :
    ofSource instructions source = .ok tokens ↔
      readItems instructions source.toList [] = .ok tokens := by
  unfold ofSource
  split <;> simp [*]

theorem ofSource_eq_error_iff_readItems {source : String}
    {error : LexicalError} :
    ofSource instructions source = .error error ↔
      ∃ before refusal,
        readItems instructions source.toList [] = .error refusal ∧
        source.toList = before ++ refusal.remaining ∧
        error = ⟨refusal.fault, .counted before⟩ := by
  have position {before : List Char} {refusal : Refusal}
      (split : source.toList = before ++ refusal.remaining) :
      positionOf source.toList refusal.remaining = .counted before := by
    rw [split, positionOf_append]
  unfold ofSource
  constructor
  · intro failed
    split at failed
    · cases failed
    · next refusal refused =>
      cases failed
      obtain ⟨before, split⟩ := exists_append_of_readItems_eq_error refused
      exact ⟨before, refusal, refused, split, by rw [position split]⟩
  · rintro ⟨before, refusal, refused, split, rfl⟩
    rw [refused, ← position split]

variable {first second ending : String}

theorem toList_append_lineEnd (first second ending : String) :
    (first ++ ending ++ second).toList =
      first.toList ++ (ending.toList ++ second.toList) := by
  simp [String.toList_append]

/-- The tokens of two texts, one below the other, are those of the first and
then those of the second. -/
theorem ofSource_append_of_ok {firstTokens secondTokens : List Token}
    (isLineEnd : IsLineEnd ending.toList)
    (firstTokenized : ofSource instructions first = .ok firstTokens)
    (secondTokenized : ofSource instructions second = .ok secondTokens) :
    ofSource instructions (first ++ ending ++ second) =
      .ok (firstTokens ++ secondTokens) := by
  rw [ofSource_eq_ok_iff_readItems] at firstTokenized secondTokenized ⊢
  rw [toList_append_lineEnd, readItems_append_lineEnd isLineEnd, firstTokenized]
  dsimp only
  rw [readItems_eq_map, secondTokenized, List.reverse_reverse]
  rfl

/-- A fault of the second text is moved down by the lines ahead of it. -/
theorem ofSource_append_of_error_below {firstTokens : List Token}
    {error : LexicalError} (isLineEnd : IsLineEnd ending.toList)
    (firstTokenized : ofSource instructions first = .ok firstTokens)
    (failed : ofSource instructions second = .error error) :
    ofSource instructions (first ++ ending ++ second) =
      .error ⟨error.fault,
        ⟨error.position.line + first.toList.count '\n' + 1,
          error.position.column⟩⟩ := by
  rw [ofSource_eq_ok_iff_readItems] at firstTokenized
  obtain ⟨before, refusal, refused, split, rfl⟩ :=
    ofSource_eq_error_iff_readItems.mp failed
  rw [ofSource_eq_error_iff_readItems]
  refine ⟨first.toList ++ (ending.toList ++ before), refusal, ?_, ?_, ?_⟩
  · rw [toList_append_lineEnd, readItems_append_lineEnd isLineEnd,
      firstTokenized]
    dsimp only
    rw [readItems_eq_map, refused]
    rfl
  · rw [toList_append_lineEnd, split]
    simp
  · rw [isLineEnd.counted_append]

/-- A fault of the first text is not affected by what comes below. -/
theorem ofSource_append_of_error {error : LexicalError}
    (isLineEnd : IsLineEnd ending.toList)
    (failed : ofSource instructions first = .error error) (second : String) :
    ofSource instructions (first ++ ending ++ second) = .error error := by
  obtain ⟨before, refusal, refused, split, rfl⟩ :=
    ofSource_eq_error_iff_readItems.mp failed
  rw [ofSource_eq_error_iff_readItems]
  refine ⟨before,
    ⟨refusal.fault, refusal.remaining ++ (ending.toList ++ second.toList)⟩,
    ?_, ?_, rfl⟩
  · rw [toList_append_lineEnd, readItems_append_lineEnd isLineEnd, refused]
  · rw [toList_append_lineEnd, split, List.append_assoc]

theorem ofSource_append_lineFeed {firstTokens secondTokens : List Token}
    (firstTokenized : ofSource instructions first = .ok firstTokens)
    (secondTokenized : ofSource instructions second = .ok secondTokens) :
    ofSource instructions (first ++ "\n" ++ second) =
      .ok (firstTokens ++ secondTokens) :=
  ofSource_append_of_ok .lineFeed firstTokenized secondTokenized

/-- Texts are read line by line.  If two of them can be read, so can the second
below the first, and the tokens of the one come after those of the other.  A
fault of the second is moved down by the lines ahead of it and stays in its
column, and a fault of the first stays what it is. -/
theorem ofSource_append_lineEnd (instructions : InstructionSet)
    (first second ending : String) (isLineEnd : IsLineEnd ending.toList) :
    (∀ firstTokens secondTokens,
        ofSource instructions first = .ok firstTokens →
        ofSource instructions second = .ok secondTokens →
        ofSource instructions (first ++ ending ++ second) =
          .ok (firstTokens ++ secondTokens)) ∧
      (∀ firstTokens error,
        ofSource instructions first = .ok firstTokens →
        ofSource instructions second = .error error →
        ofSource instructions (first ++ ending ++ second) =
          .error ⟨error.fault,
            ⟨error.position.line + first.toList.count '\n' + 1,
              error.position.column⟩⟩) ∧
      ∀ error, ofSource instructions first = .error error →
        ofSource instructions (first ++ ending ++ second) = .error error :=
  ⟨fun _ _ => ofSource_append_of_ok isLineEnd,
    fun _ _ => ofSource_append_of_error_below isLineEnd,
    fun _ failed => ofSource_append_of_error isLineEnd failed second⟩

end Token

/-! ### A comment that is open at the end -/

namespace OpenComment

def source : String :=
  "main:\n  # a"

def ending : String :=
  "# b, 1é\n"

def faulty : String :=
  "\n $zz"

theorem isLineEnd : IsLineEnd ending.toList := by
  have spelled : ending.toList = '#' :: (" b, 1é".toList ++ ['\n']) := by
    decide +kernel
  rw [spelled]
  exact .comment _ (by decide +kernel)

theorem tokenized :
    Token.ofSource Mips32.instructionSet source = .ok [⟨.label, "main"⟩] := by
  decide +kernel

theorem failed : Token.ofSource Mips32.instructionSet faulty =
    .error ⟨.invalidRegister "zz", ⟨2, 2⟩⟩ := by
  decide +kernel

/-- The fault is moved down by two lines below the text, and by none above
it. -/
theorem ofSource_joined :
    IsLineEnd ending.toList ∧
      Token.ofSource Mips32.instructionSet (source ++ ending ++ source) =
        .ok [⟨.label, "main"⟩, ⟨.label, "main"⟩] ∧
      Token.ofSource Mips32.instructionSet (source ++ ending ++ faulty) =
        .error ⟨.invalidRegister "zz", ⟨4, 2⟩⟩ ∧
      Token.ofSource Mips32.instructionSet (faulty ++ ending ++ source) =
        .error ⟨.invalidRegister "zz", ⟨2, 2⟩⟩ := by
  have laws := fun first second => Token.ofSource_append_lineEnd
    Mips32.instructionSet first second ending isLineEnd
  exact ⟨isLineEnd, (laws source source).1 _ _ tokenized tokenized,
    (laws source faulty).2.1 _ _ tokenized failed,
    (laws faulty source).2.2 _ failed⟩

end OpenComment

end MipsAssembler
