import Mathlib.Data.List.TakeWhile

/-!
# Letters, digits and runs of characters

Letters and digits are different characters.  A run of accepted characters ends
with a text that goes on with no such character.
-/

namespace MipsAssembler.Text

/-! ## Letters and digits -/

section Character

variable {character : Char}

theorem isAlpha_iff_toNat : character.isAlpha = true ↔
    0x41 ≤ character.toNat ∧ character.toNat ≤ 0x5A ∨
      0x61 ≤ character.toNat ∧ character.toNat ≤ 0x7A := by
  have bounds : character.isAlpha =
      (decide ('A'.val ≤ character.val ∧ character.val ≤ 'Z'.val) ||
        decide ('a'.val ≤ character.val) &&
          decide (character.val ≤ 'z'.val)) := rfl
  simp only [bounds, Bool.or_eq_true, Bool.and_eq_true, decide_eq_true_eq,
    UInt32.le_iff_toNat_le]
  rfl

theorem isDigit_of_isAlpha (letter : character.isAlpha = true) :
    character.isDigit = false := by
  have letterBounds := isAlpha_iff_toNat.mp letter
  rw [Bool.eq_false_iff]
  intro digit
  have digitBounds : 0x30 ≤ character.toNat ∧ character.toNat ≤ 0x39 :=
    Char.isDigit_iff_toNat.mp digit
  omega

theorem isAlpha_of_isDigit (digit : character.isDigit = true) :
    character.isAlpha = false := by
  rw [Bool.eq_false_iff]
  intro letter
  exact Bool.false_ne_true ((isDigit_of_isAlpha letter).symm.trans digit)

end Character

/-! ## Runs -/

section Run

variable {accepted : Char → Bool} {text rest : List Char}

/-- Whatever stands behind a character that is not accepted does not matter. -/
theorem takeWhile_append_of_head?
    (stops : ∀ character, rest.head? = some character →
      accepted character = false) :
    (text ++ rest).takeWhile accepted = text.takeWhile accepted := by
  have nothing : rest.takeWhile accepted = [] := by
    cases rest with
    | nil => rfl
    | cons first rest => simp [stops first rfl]
  rw [List.takeWhile_append, nothing, List.append_nil]
  split
  · next all => exact ((List.takeWhile_prefix _).eq_of_length all).symm
  · rfl

theorem dropWhile_append_of_head?
    (stops : ∀ character, rest.head? = some character →
      accepted character = false) :
    (text ++ rest).dropWhile accepted = text.dropWhile accepted ++ rest := by
  have everything : rest.dropWhile accepted = rest := by
    cases rest with
    | nil => rfl
    | cons first rest => simp [stops first rfl]
  rw [List.dropWhile_append, everything]
  split
  · next none => rw [List.isEmpty_iff.mp none, List.nil_append]
  · rfl

theorem takeWhile_append_of_stops
    (all : ∀ character ∈ text, accepted character = true)
    (stops : ∀ character, rest.head? = some character →
      accepted character = false) :
    (text ++ rest).takeWhile accepted = text := by
  rw [takeWhile_append_of_head? stops, List.takeWhile_eq_self_iff.mpr all]

theorem dropWhile_append_of_stops
    (all : ∀ character ∈ text, accepted character = true)
    (stops : ∀ character, rest.head? = some character →
      accepted character = false) :
    (text ++ rest).dropWhile accepted = rest := by
  rw [dropWhile_append_of_head? stops, List.dropWhile_eq_nil_iff.mpr all,
    List.nil_append]

end Run

end MipsAssembler.Text
