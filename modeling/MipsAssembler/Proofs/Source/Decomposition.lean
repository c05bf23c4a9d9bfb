import MipsAssembler.Machine.Mips32
import MipsAssembler.Proofs.Source.Layout

/-!
# Decompositions of source texts

A text that can be read is cut into pieces: blanks, comments and lexemes.  The
characters around a piece leave only one place to cut, so a text has at most
one decomposition, and reading finds it.
-/

namespace MipsAssembler.Source

variable {instructions : InstructionSet}

/-! ## Pieces -/

/-- A part of a source text that is read at once. -/
inductive Piece
  | blank (character : Char)
  | comment (content : List Char)
  | lexeme (token : Token) (characters : List Char)

namespace Piece

def characters : Piece → List Char
  | blank character => [character]
  | comment content => '#' :: content
  | lexeme _ characters => characters

/-- The token that a piece stands for; blanks and comments stand for none. -/
def token? : Piece → Option Token
  | blank _ | comment _ => none
  | lexeme token _ => some token

def IsValid (instructions : InstructionSet) : Piece → Prop
  | blank character => isBlank character = true
  | comment content => '\n' ∉ content
  | lexeme token characters => Lexeme instructions token characters

/-- The piece is over where the text begins.  A comment goes on to the end of
its line. -/
def EndsBefore (piece : Piece) (text : List Char) : Prop :=
  match piece with
  | blank _ => True
  | comment _ => ∀ character, text.head? = some character → character = '\n'
  | lexeme token _ => Ends token.kind text

/-- The piece stands at the front of a text, and the item is what reading
makes of it. -/
structure IsFirst (instructions : InstructionSet) (piece : Piece)
    (text : List Char) (item : Item) : Prop where
  valid : piece.IsValid instructions
  ends : piece.EndsBefore item.remaining
  split : text = piece.characters ++ item.remaining
  tokenEq : piece.token? = item.token?

end Piece

/-! ## Reading one piece -/

theorem atTerminator_afterRun (text : List Char) :
    AtTerminator (afterRun text) := by
  intro character atHead
  have stops := List.head?_dropWhile_not
    (fun character => !isTerminator character) text
  rw [afterRun] at atHead
  rw [atHead] at stops
  simpa using stops

theorem readName_eq_ok_iff {characters : List Char} {name : String} :
    readName characters = .ok name ↔
      IsName characters ∧ Text.foldCase (String.ofList characters) = name := by
  constructor
  · intro read
    cases found : characters.find? fun character =>
        !isWordCharacter character with
    | some character => simp [readName, found] at read
    | none =>
        have isName : IsName characters := by
          intro character member
          simpa using List.find?_eq_none.mp found character member
        rw [isName.readName] at read
        exact ⟨isName, Except.ok.inj read⟩
  · rintro ⟨isName, rfl⟩
    exact isName.readName

theorem exists_isFirst_of_readRegister {rest : List Char} {item : Item}
    (read : readRegister instructions rest = .ok item) :
    ∃ piece : Piece, piece.IsFirst instructions ('$' :: rest) item := by
  unfold readRegister at read
  split at read
  · cases read
  next name nameRead =>
  split at read
  · next known =>
    cases read
    obtain ⟨isName, rfl⟩ := readName_eq_ok_iff.mp nameRead
    exact ⟨.lexeme _ ('$' :: run rest), .register (run rest) isName known,
      atTerminator_afterRun rest, by simp [Piece.characters, run_append_afterRun],
      rfl⟩
  · cases read

theorem exists_isFirst_of_readDirective {rest : List Char} {item : Item}
    (read : readDirective instructions rest = .ok item) :
    ∃ piece : Piece, piece.IsFirst instructions ('.' :: rest) item := by
  unfold readDirective at read
  split at read
  · cases read
  next name nameRead =>
  split at read
  · next known =>
    cases read
    obtain ⟨isName, rfl⟩ := readName_eq_ok_iff.mp nameRead
    exact ⟨.lexeme _ ('.' :: run rest), .directive (run rest) isName known,
      atTerminator_afterRun rest, by simp [Piece.characters, run_append_afterRun],
      rfl⟩
  · cases read

theorem exists_isFirst_of_readNumber {text : List Char} {item : Item}
    (read : readNumber text = .ok item) :
    ∃ piece : Piece, piece.IsFirst instructions text item := by
  unfold readNumber at read
  split at read
  · cases read
  · next number literalRead =>
    cases read
    obtain ⟨literal, formed, fits, spellingEq, rfl⟩ :=
      Literal.read_eq_ok_iff.mp literalRead
    refine ⟨.lexeme _ literal.spelling, .number literal formed fits,
      atTerminator_afterRun text, ?_, rfl⟩
    rw [Piece.characters, spellingEq, run_append_afterRun]

theorem exists_isFirst_of_readWord {first : Char} {rest : List Char} {item : Item}
    (letter : first.isAlpha = true)
    (read : readWord (first :: rest) = .ok item) :
    ∃ piece : Piece, piece.IsFirst instructions (first :: rest) item := by
  have split := run_append_afterRun (first :: rest)
  have terminator := atTerminator_afterRun (first :: rest)
  unfold readWord at read
  split at read
  · cases read
  next name nameRead =>
  obtain ⟨isName, rfl⟩ := readName_eq_ok_iff.mp nameRead
  have isWord : IsWord (run (first :: rest)) := by
    refine ⟨isName, first, run rest, ?_, letter⟩
    simp [run, isTerminator_of_isAlpha letter]
  split at read
  · next remaining afterEq =>
    cases read
    refine ⟨.lexeme _ (run (first :: rest) ++ [':']), .label _ isWord, trivial,
      ?_, rfl⟩
    rw [afterEq] at split
    simp [Piece.characters, split]
  · next noColon =>
    cases read
    refine ⟨.lexeme _ (run (first :: rest)), .identifier _ isWord,
      ⟨terminator, ?_⟩, split.symm, rfl⟩
    intro colon
    obtain ⟨remaining, afterEq⟩ := List.head?_eq_some_iff.mp colon
    exact noColon remaining afterEq

/-- What is read at the front of a text is a piece. -/
theorem exists_isFirst_of_readItem {first : Char} {rest : List Char}
    {item : Item} (read : readItem instructions first rest = .ok item) :
    ∃ piece : Piece, piece.IsFirst instructions (first :: rest) item := by
  unfold readItem at read
  split at read
  · next blank =>
    cases read
    exact ⟨.blank first, blank, trivial, rfl, rfl⟩
  split at read
  · next hash =>
    cases read
    subst hash
    refine ⟨.comment (rest.takeWhile (· ≠ '\n')), ?_, ?_, ?_, rfl⟩
    · intro member
      simpa using List.mem_takeWhile_imp member
    · intro character atHead
      have stops := List.head?_dropWhile_not (· ≠ '\n') rest
      rw [atHead] at stops
      simpa using stops
    · simp [Piece.characters]
  split at read
  · next comma =>
    cases read
    subst comma
    exact ⟨.lexeme _ [','], .comma, trivial, rfl, rfl⟩
  split at read
  · next openParen =>
    cases read
    subst openParen
    exact ⟨.lexeme _ ['('], .openParen, trivial, rfl, rfl⟩
  split at read
  · next closeParen =>
    cases read
    subst closeParen
    exact ⟨.lexeme _ [')'], .closeParen, trivial, rfl, rfl⟩
  split at read
  · next mark =>
    subst mark
    exact exists_isFirst_of_readRegister read
  split at read
  · next mark =>
    subst mark
    exact exists_isFirst_of_readDirective read
  split at read
  · exact exists_isFirst_of_readNumber read
  split at read
  · next letter => exact exists_isFirst_of_readWord letter read
  · cases read

/-- A piece at the front of a text is what is read there. -/
theorem Piece.IsFirst.exists_readItem {piece : Piece} {text : List Char}
    {item : Item} (isFirst : piece.IsFirst instructions text item) :
    ∃ first rest, text = first :: rest ∧
      readItem instructions first rest = .ok item := by
  obtain ⟨valid, ends, rfl, tokenEq⟩ := isFirst
  obtain ⟨token?, remaining⟩ := item
  subst tokenEq
  cases piece with
  | blank character =>
      exact ⟨character, remaining, rfl, readItem_of_isBlank valid⟩
  | comment content =>
      exact ⟨'#', content ++ remaining, rfl, readItem_comment valid ends⟩
  | lexeme token characters => exact Lexeme.exists_readItem valid ends

namespace Piece

theorem isFirst_append {piece : Piece} {text : List Char}
    (valid : piece.IsValid instructions) (ends : piece.EndsBefore text) :
    piece.IsFirst instructions (piece.characters ++ text)
      ⟨piece.token?, text⟩ :=
  ⟨valid, ends, rfl, rfl⟩

theorem append_ne_nil {piece : Piece} {text : List Char}
    (valid : piece.IsValid instructions) (ends : piece.EndsBefore text) :
    piece.characters ++ text ≠ [] := by
  obtain ⟨first, rest, consEq, -⟩ :=
    (isFirst_append valid ends).exists_readItem
  simp [consEq]

end Piece

/-- Only one piece stands at the front of a text. -/
theorem Piece.IsFirst.unique {first second : Piece} {text : List Char}
    {firstItem secondItem : Item}
    (firstIs : first.IsFirst instructions text firstItem)
    (secondIs : second.IsFirst instructions text secondItem) :
    first = second ∧ firstItem = secondItem := by
  obtain ⟨character, rest, rfl, firstRead⟩ := firstIs.exists_readItem
  obtain ⟨_, _, consEq, secondRead⟩ := secondIs.exists_readItem
  cases consEq
  have itemEq : firstItem = secondItem :=
    Except.ok.inj (firstRead.symm.trans secondRead)
  subst itemEq
  have charactersEq : first.characters = second.characters :=
    List.append_cancel_right (firstIs.split.symm.trans secondIs.split)
  have tokenEq := firstIs.tokenEq.trans secondIs.tokenEq.symm
  -- Blanks and comments stand for no token, but no blank is a hash mark.
  have notHash {character : Char} (blank : isBlank character = true) :
      character ≠ '#' := by
    rintro rfl
    cases blank
  refine ⟨?_, rfl⟩
  cases first with
  | blank character =>
      cases second with
      | blank other => rw [List.singleton_inj.mp charactersEq]
      | comment content =>
          exact absurd (List.cons.inj charactersEq).1 (notHash firstIs.valid)
      | lexeme token characters => cases tokenEq
  | comment content =>
      cases second with
      | blank other =>
          exact absurd (List.cons.inj charactersEq).1.symm
            (notHash secondIs.valid)
      | comment other => rw [(List.cons.inj charactersEq).2]
      | lexeme token characters => cases tokenEq
  | lexeme token characters =>
      cases second with
      | blank other => cases tokenEq
      | comment content => cases tokenEq
      | lexeme other otherCharacters =>
          rw [Option.some.inj tokenEq, show characters = otherCharacters from
            charactersEq]

/-! ## Decompositions -/

/-- The text is the pieces one after another, and each of them is over where
the next one begins. -/
inductive IsDecomposition (instructions : InstructionSet) :
    List Piece → List Char → Prop
  | nil : IsDecomposition instructions [] []
  | cons {piece : Piece} {pieces : List Piece} {text : List Char}
      (valid : piece.IsValid instructions) (ends : piece.EndsBefore text)
      (rest : IsDecomposition instructions pieces text) :
      IsDecomposition instructions (piece :: pieces) (piece.characters ++ text)

theorem IsDecomposition.layout {pieces : List Piece} {text : List Char}
    (decomposition : IsDecomposition instructions pieces text) :
    Layout instructions (pieces.filterMap Piece.token?) text := by
  induction decomposition with
  | nil => exact .nil
  | @cons piece pieces text valid ends rest ih =>
      cases piece with
      | blank character => exact .blank valid ih
      | comment content => exact .comment valid ends ih
      | lexeme token characters => exact .lexeme valid ends ih

theorem IsDecomposition.unique {first second : List Piece} {text : List Char}
    (firstIs : IsDecomposition instructions first text)
    (secondIs : IsDecomposition instructions second text) : first = second := by
  induction firstIs generalizing second with
  | nil =>
      generalize textEq : ([] : List Char) = text at secondIs
      cases secondIs with
      | nil => rfl
      | cons valid ends rest =>
          exact absurd textEq.symm (Piece.append_ne_nil valid ends)
  | @cons piece pieces text valid ends rest ih =>
      generalize textEq : piece.characters ++ text = whole at secondIs
      cases secondIs with
      | nil => exact absurd textEq (Piece.append_ne_nil valid ends)
      | @cons other others otherText otherValid otherEnds otherRest =>
          have isFirst := Piece.isFirst_append valid ends
          have otherIsFirst := Piece.isFirst_append otherValid otherEnds
          rw [textEq] at isFirst
          obtain ⟨pieceEq, itemEq⟩ := isFirst.unique otherIsFirst
          obtain rfl := (Item.mk.inj itemEq).2
          rw [pieceEq, ih otherRest]

/-- Reading to the end of a text decomposes it. -/
theorem exists_isDecomposition_of_readItems {text : List Char}
    {found tokens : List Token}
    (read : readItems instructions text found = .ok tokens) :
    ∃ pieces, IsDecomposition instructions pieces text := by
  induction size : text.length using Nat.strongRecOn
    generalizing text found with
  | ind count ih =>
      cases text with
      | nil => exact ⟨[], .nil⟩
      | cons first rest =>
          -- An item may take many characters, so the rest is no tail.
          rw [readItems_cons] at read
          split at read
          · cases read
          next item itemRead =>
          have shorter : item.remaining.length < count := by
            have bound := length_remaining_readItem_le itemRead
            rw [← size, List.length_cons]
            omega
          obtain ⟨pieces, decomposition⟩ := ih _ shorter read rfl
          obtain ⟨piece, isFirst⟩ := exists_isFirst_of_readItem itemRead
          rw [isFirst.split]
          exact ⟨piece :: pieces,
            .cons isFirst.valid isFirst.ends decomposition⟩

end MipsAssembler.Source

namespace MipsAssembler

open Source

/-- Reading a source text succeeds exactly when the text can be decomposed.
There is then one decomposition, and the tokens are those of its pieces. -/
theorem Token.ofSource_isOk_iff_decomposition (instructions : InstructionSet)
    (source : String) :
    ((∃ tokens, Token.ofSource instructions source = .ok tokens) ↔
        ∃ pieces, IsDecomposition instructions pieces source.toList) ∧
      ∀ pieces, IsDecomposition instructions pieces source.toList →
        (∀ others, IsDecomposition instructions others source.toList →
            others = pieces) ∧
          Token.ofSource instructions source =
            .ok (pieces.filterMap Piece.token?) := by
  refine ⟨⟨?_, ?_⟩, ?_⟩
  · rintro ⟨tokens, read⟩
    unfold Token.ofSource at read
    split at read
    · next itemsRead => exact exists_isDecomposition_of_readItems itemsRead
    · cases read
  · rintro ⟨pieces, decomposition⟩
    exact ⟨_, Token.ofSource_of_layout decomposition.layout⟩
  · intro pieces decomposition
    exact ⟨fun others otherIs => otherIs.unique decomposition,
      Token.ofSource_of_layout decomposition.layout⟩

/-! ### A text without spaces -/

namespace CompactText

def source : String :=
  "Go:#$\n$T0,-0b10"

def pieces : List Piece :=
  [.lexeme ⟨.label, "go"⟩ ['G', 'o', ':'], .comment ['$'], .blank '\n',
    .lexeme ⟨.register, "t0"⟩ ['$', 'T', '0'], .lexeme ⟨.comma, ","⟩ [','],
    .lexeme ⟨.number, "-2"⟩ ['-', '0', 'b', '1', '0']]

theorem isDecomposition :
    IsDecomposition Mips32.instructionSet pieces source.toList := by
  have textEq : source.toList = pieces.flatMap Piece.characters := by
    decide +kernel
  rw [textEq]
  simp only [pieces, List.flatMap_cons, List.flatMap_nil]
  refine .cons (.label ['G', 'o']
    ⟨List.all_eq_true.mp rfl, 'G', ['o'], rfl, rfl⟩) trivial ?_
  refine .cons (by simp [Piece.IsValid]) ?_ ?_
  · rintro character ⟨⟩
    rfl
  refine .cons rfl trivial ?_
  refine .cons (.register ['T', '0'] (List.all_eq_true.mp rfl)
    (by decide +kernel)) (atTerminator_cons (by decide) _) ?_
  refine .cons .comma trivial ?_
  exact .cons (.number ⟨true, ['0', 'b'], .binary, ['1', '0']⟩
    ⟨.binary, by decide, List.all_eq_true.mp rfl⟩ (by decide)) nofun .nil

theorem ofSource_eq :
    IsDecomposition Mips32.instructionSet pieces source.toList ∧
      Token.ofSource Mips32.instructionSet source =
        .ok [⟨.label, "go"⟩, ⟨.register, "t0"⟩, ⟨.comma, ","⟩,
          ⟨.number, "-2"⟩] :=
  ⟨isDecomposition, ((Token.ofSource_isOk_iff_decomposition
    Mips32.instructionSet source).2 pieces isDecomposition).2⟩

end CompactText

end MipsAssembler
