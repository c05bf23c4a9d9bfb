import Mathlib.Data.List.Forall2
import MipsAssembler.Program.Rendering
import MipsAssembler.Proofs.Numeral.PaddedDigits
import MipsAssembler.Proofs.Program.WordAddress

/-!
# The lines of the output formats

Three formats have one line for each word.  Every word fits the width of its
numerals, so that each line has the same shape, whatever the program.
-/

namespace MipsAssembler

/-! ## Lines -/

/-- The lines of a text, taken apart at its line feeds.  The empty text has
none. -/
def Text.lines (text : String) : List String :=
  if text = "" then [] else (text.toList.splitOn '\n').map String.ofList

/-- What can stand in one line. -/
def IsLine (line : String) : Prop :=
  line ≠ "" ∧ '\n' ∉ line.toList

theorem joinLines_ne_empty {first : String} (firstLine : IsLine first)
    (later : List String) : joinLines (first :: later) ≠ "" := by
  intro empty
  have characters := congrArg String.toList empty
  rw [joinLines, String.toList_intercalate, List.map_cons] at characters
  cases later with
  | nil =>
      rw [List.map_nil, List.intercalate_singleton] at characters
      exact firstLine.1 (String.toList_inj.mp characters)
  | cons next later => simp at characters

theorem lines_joinLines {lines : List String}
    (areLines : ∀ line ∈ lines, IsLine line) :
    Text.lines (joinLines lines) = lines := by
  cases lines with
  | nil => rfl
  | cons first later =>
      have nonempty := joinLines_ne_empty
        (areLines first List.mem_cons_self) later
      have split := List.splitOn_intercalate '\n'
        (List.forall_mem_map.mpr fun line member => (areLines line member).2)
        (List.cons_ne_nil (String.toList first) (later.map String.toList))
      rw [Text.lines, if_neg nonempty, joinLines, String.toList_intercalate]
      have lineFeed : "\n".toList = ['\n'] := rfl
      rw [lineFeed, split, List.map_map]
      simp

/-- Taking a text apart into lines loses nothing. -/
theorem joinLines_lines (text : String) : joinLines (Text.lines text) = text := by
  by_cases empty : text = ""
  · rw [Text.lines, if_pos empty, empty]
    rfl
  · have lineFeed : "\n".toList = ['\n'] := rfl
    rw [← String.toList_inj, joinLines, String.toList_intercalate, Text.lines,
      if_neg empty, List.map_map, lineFeed]
    simp

theorem eq_empty_of_lines_eq_nil {text : String} (none : Text.lines text = []) :
    text = "" := by
  rw [← joinLines_lines text, none]
  rfl

/-! ## Numerals as lines -/

variable {radix : Radix} {width number : Nat} {text : String}

theorem Radix.Spells.lineFeed_notMem (spells : radix.Spells width text number) :
    '\n' ∉ text.toList := by
  intro member
  have digit := spells.isDigit '\n' member
  cases radix <;> exact absurd digit (by decide)

theorem Radix.Spells.isLine (spells : radix.Spells width text number)
    (positive : 0 < width) : IsLine text := by
  refine ⟨?_, spells.lineFeed_notMem⟩
  rintro rfl
  have length := spells.length
  rw [String.length_empty] at length
  omega

namespace Instruction

theorem spells_binaryText (instruction : Instruction) :
    Radix.binary.Spells 32 instruction.binaryText instruction.word.toNat :=
  Radix.spells_writePadded (by decide) instruction.word.toNat_lt

theorem spells_hexadecimalText (instruction : Instruction) :
    Radix.hexadecimal.Spells 8 instruction.hexadecimalText
      instruction.word.toNat :=
  Radix.spells_writePadded (by decide) instruction.word.toNat_lt

end Instruction

/-- Three columns, two blanks apart: the address and the word as hexadecimal
numerals with their mark, and the word in binary. -/
def IsListingLine (address word : UInt32) (line : String) : Prop :=
  ∃ addressDigits hexadecimalDigits binaryDigits : String,
    line = "0x" ++ addressDigits ++ "  " ++ "0x" ++ hexadecimalDigits ++
      "  " ++ binaryDigits ∧
    Radix.hexadecimal.Spells 8 addressDigits address.toNat ∧
    Radix.hexadecimal.Spells 8 hexadecimalDigits word.toNat ∧
    Radix.binary.Spells 32 binaryDigits word.toNat

theorem isListingLine_listingLine (address : UInt32)
    (instruction : Instruction) :
    IsListingLine address instruction.word
      (Assembly.listingLine address instruction) := by
  refine ⟨Radix.hexadecimal.writePadded 8 address.toNat,
    instruction.hexadecimalText, instruction.binaryText, ?_,
    Radix.spells_writePadded (by decide) address.toNat_lt,
    instruction.spells_hexadecimalText, instruction.spells_binaryText⟩
  rfl

theorem IsListingLine.isLine {address word : UInt32} {line : String}
    (shape : IsListingLine address word line) : IsLine line := by
  obtain ⟨addressDigits, hexadecimalDigits, binaryDigits, rfl, spellsAddress,
    spellsHexadecimal, spellsBinary⟩ := shape
  have mark : '\n' ∉ "0x".toList := by decide
  have blanks : '\n' ∉ "  ".toList := by decide
  constructor
  · intro empty
    have characters := congrArg String.toList empty
    simp [String.toList_append] at characters
  · simp only [String.toList_append, List.mem_append, not_or]
    exact ⟨⟨⟨⟨⟨⟨mark, spellsAddress.lineFeed_notMem⟩, blanks⟩, mark⟩,
      spellsHexadecimal.lineFeed_notMem⟩, blanks⟩,
      spellsBinary.lineFeed_notMem⟩

/-! ## The formats -/

/-- If each item is written as a line that shows what the item denotes, then
the lines of the text show what the items denote. -/
theorem forall₂_lines {α β : Type} {write : α → String} {denote : α → β}
    {Shows : String → β → Prop} (areLines : ∀ item, IsLine (write item))
    (shows : ∀ item, Shows (write item) (denote item)) (items : List α) :
    List.Forall₂ Shows (Text.lines (joinLines (items.map write)))
      (items.map denote) := by
  rw [lines_joinLines (List.forall_mem_map.mpr fun item _ => areLines item),
    List.forall₂_map_left_iff, List.forall₂_map_right_iff, List.forall₂_same]
  exact fun item _ => shows item

namespace Assembly

/-- The address that a listing counts up is that of each word. -/
theorem listingLines_wordAddress (base : UInt32) (index : Nat)
    (instructions : List Instruction) :
    listingLines (wordAddress base index) instructions =
      (instructions.zipIdx index).map fun entry =>
        listingLine (wordAddress base entry.2) entry.1 := by
  induction instructions generalizing index with
  | nil => rfl
  | cons instruction later ih =>
      rw [listingLines, nextWord_wordAddress, ih, List.zipIdx_cons, List.map_cons]

theorem listing_eq (assembly : Assembly) :
    assembly.listing =
      joinLines (assembly.instructions.zipIdx.map fun entry =>
        listingLine (wordAddress assembly.baseAddress entry.2) entry.1) := by
  have lines := listingLines_wordAddress assembly.baseAddress 0
    assembly.instructions
  rw [wordAddress_zero] at lines
  rw [listing, lines]

/-- In the formats with a line for each word, each line shows its word.  The
addresses of a listing count up from the base address. -/
structure LinesShowWords (assembly : Assembly) : Prop where
  binary :
    List.Forall₂
      (fun line (word : UInt32) => Radix.binary.Spells 32 line word.toNat)
      (Text.lines (assembly.render .binary)) assembly.words
  hexadecimal :
    List.Forall₂
      (fun line (word : UInt32) => Radix.hexadecimal.Spells 8 line word.toNat)
      (Text.lines (assembly.render .hexadecimal)) assembly.words
  listing :
    List.Forall₂
      (fun line (entry : UInt32 × Nat) =>
        IsListingLine (wordAddress assembly.baseAddress entry.2) entry.1 line)
      (Text.lines (assembly.render .listing)) assembly.words.zipIdx

theorem linesShowWords (assembly : Assembly) : assembly.LinesShowWords := by
  constructor
  · apply forall₂_lines
    · exact fun instruction => instruction.spells_binaryText.isLine (by decide)
    · exact Instruction.spells_binaryText
  · apply forall₂_lines
    · exact fun instruction =>
        instruction.spells_hexadecimalText.isLine (by decide)
    · exact Instruction.spells_hexadecimalText
  · rw [words, List.zipIdx_map, render, listing_eq]
    apply forall₂_lines
    · exact fun entry => (isListingLine_listingLine _ entry.1).isLine
    · exact fun entry => isListingLine_listingLine _ entry.1

/-- Without instructions, the formats with a line for each are empty. -/
theorem LinesShowWords.render_eq_empty {assembly : Assembly}
    (shown : assembly.LinesShowWords) (noWords : assembly.words = [])
    {format : OutputFormat} (lineFormat : format ≠ .json) :
    assembly.render format = "" := by
  have binary := shown.binary
  have hexadecimal := shown.hexadecimal
  have listing := shown.listing
  rw [noWords, List.forall₂_nil_right_iff] at binary hexadecimal
  rw [noWords, List.zipIdx_nil, List.forall₂_nil_right_iff] at listing
  cases format with
  | binary => exact eq_empty_of_lines_eq_nil binary
  | hexadecimal => exact eq_empty_of_lines_eq_nil hexadecimal
  | listing => exact eq_empty_of_lines_eq_nil listing
  | json => exact absurd rfl lineFormat

end Assembly

end MipsAssembler
