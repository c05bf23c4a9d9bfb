import Mathlib.Data.List.Induction
import Mathlib.Data.List.TakeWhile
import MipsAssembler.Proofs.Text.Run
import MipsAssembler.Source.Position

/-!
# Positions and offsets

A position counts the line feeds ahead of a place in a text, and the characters
since the last one.  Different places of one text have different positions.
-/

namespace MipsAssembler.Position

/-! ## Counting lines and columns -/

/-- The characters since the last line feed of a text. -/
def lastLine (text : List Char) : List Char :=
  (text.reverse.takeWhile (· ≠ '\n')).reverse

/-- The position after a text, by the number of its line feeds and the length of
its last line. -/
def counted (text : List Char) : Position :=
  ⟨1 + text.count '\n', 1 + (lastLine text).length⟩

theorem counted_append_singleton (text : List Char) (character : Char) :
    counted (text ++ [character]) = (counted text).advance character := by
  by_cases lineFeed : character = '\n'
  · subst lineFeed
    simp [counted, lastLine, advance, Nat.add_assoc]
  · simp [counted, lastLine, advance, lineFeed, Nat.add_assoc]

theorem after_eq_counted (text : List Char) : after text = counted text := by
  induction text using List.reverseRecOn with
  | nil => rfl
  | append_singleton text character ih =>
      rw [counted_append_singleton, ← ih, after, List.foldl_append]
      rfl

/-- After a line feed, columns are counted afresh. -/
theorem counted_append_lineFeed (text more : List Char) :
    counted (text ++ '\n' :: more) =
      ⟨(counted more).line + text.count '\n' + 1, (counted more).column⟩ := by
  have stops : ∀ character, ('\n' :: text.reverse).head? = some character →
      decide (character ≠ '\n') = false := by
    rintro character ⟨⟩
    rfl
  have sameLastLine : lastLine (text ++ '\n' :: more) = lastLine more := by
    rw [lastLine, List.reverse_append, List.reverse_cons, List.append_assoc,
      List.singleton_append, Text.takeWhile_append_of_head? stops, lastLine]
  simp only [counted, sameLastLine, List.count_append, List.count_cons_self]
  congr 1
  omega

/-! ## Different places -/

theorem line_counted_append (text more : List Char) :
    (counted (text ++ more)).line = (counted text).line + more.count '\n' := by
  simp [counted, Nat.add_assoc]

theorem column_counted_append {text more : List Char} (oneLine : '\n' ∉ more) :
    (counted (text ++ more)).column = (counted text).column + more.length := by
  have passes : ∀ character ∈ more.reverse,
      decide (character ≠ '\n') = true :=
    fun character member => decide_eq_true fun equal =>
      oneLine (equal ▸ List.mem_reverse.mp member)
  simp only [counted, lastLine, List.reverse_append,
    List.takeWhile_append_of_pos passes, List.length_append, List.length_reverse]
  omega

/-- A text that goes on does not come back to its position. -/
theorem counted_append_ne {text more : List Char} (nonempty : more ≠ []) :
    counted (text ++ more) ≠ counted text := by
  intro same
  have sameLine := congrArg line same
  rw [line_counted_append, Nat.add_eq_left, List.count_eq_zero] at sameLine
  have sameColumn := congrArg column same
  rw [column_counted_append sameLine, Nat.add_eq_left] at sameColumn
  exact nonempty (List.eq_nil_of_length_eq_zero sameColumn)

/-- Different offsets of a text have different positions. -/
theorem counted_take_inj {text : List Char} {first second : Nat}
    (firstInside : first ≤ text.length) (secondInside : second ≤ text.length) :
    counted (text.take first) = counted (text.take second) ↔
      first = second := by
  have distinct {low high : Nat} (below : low < high)
      (inside : high ≤ text.length) :
      counted (text.take high) ≠ counted (text.take low) := by
    obtain ⟨more, split⟩ := List.take_prefix_take_left below.le (l := text)
    rw [← split]
    apply counted_append_ne
    rintro rfl
    have lengths := congrArg List.length split
    simp only [List.append_nil, List.length_take] at lengths
    omega
  constructor
  · intro same
    rcases Nat.lt_trichotomy first second with below | equal | above
    · exact absurd same.symm (distinct below secondInside)
    · exact equal
    · exact absurd same (distinct above firstInside)
  · rintro rfl
    rfl

end MipsAssembler.Position
