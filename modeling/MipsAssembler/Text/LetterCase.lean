/-!
# Letter case

Names are compared without regard to the case of ASCII letters.  A name is
folded once, when it is read, and from then on compared exactly; letters
outside ASCII keep their case.
-/

namespace MipsAssembler.Text

/-- The text with the letters `A` to `Z` in lower case. -/
def foldCase (text : String) : String :=
  String.ofList (text.toList.map Char.toLower)

@[simp]
theorem toList_foldCase (text : String) :
    (foldCase text).toList = text.toList.map Char.toLower :=
  String.toList_ofList

theorem toNat_toLower (character : Char) :
    character.toLower.toNat =
      if 0x41 ≤ character.toNat ∧ character.toNat ≤ 0x5A then
        character.toNat + 0x20
      else
        character.toNat := by
  have upperIff : character.val ≥ 'A'.val ∧ character.val ≤ 'Z'.val ↔
      0x41 ≤ character.toNat ∧ character.toNat ≤ 0x5A := by
    rw [ge_iff_le, UInt32.le_iff_toNat_le, UInt32.le_iff_toNat_le]
    rfl
  unfold Char.toLower
  split
  · next upper =>
    have bounds := upperIff.mp upper
    rw [if_pos bounds]
    simp only [Char.toNat] at bounds ⊢
    simp only [UInt32.toNat_add, Char.reduceVal, UInt32.reduceSub,
      UInt32.reduceToNat]
    omega
  · next lower => rw [if_neg (fun bounds => lower (upperIff.mpr bounds))]

theorem toLower_toLower (character : Char) :
    character.toLower.toLower = character.toLower := by
  apply Char.toNat_inj.mp
  have outer := toNat_toLower character.toLower
  have inner := toNat_toLower character
  split at outer <;> split at inner <;> omega

@[simp]
theorem foldCase_foldCase (text : String) :
    foldCase (foldCase text) = foldCase text := by
  simp only [foldCase, String.toList_ofList, List.map_map,
    Function.comp_def, toLower_toLower]

end MipsAssembler.Text
