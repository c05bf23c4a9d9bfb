import MipsAssembler.Machine.Category
import MipsAssembler.Program.WordAddress

/-!
# Arithmetic of word addresses

Word addresses wrap, so that two counts of words from one base give the same
address exactly when they differ by a multiple of `2 ^ 30`.
-/

namespace MipsAssembler

theorem wordAddress_wordAddress (base : UInt32) (first second : Nat) :
    wordAddress (wordAddress base first) second =
      wordAddress base (first + second) := by
  simp [wordAddress, UInt32.mul_add, UInt32.add_assoc]

theorem wordAddress_nextWord (base : UInt32) (index : Nat) :
    wordAddress (nextWord base) index = wordAddress base (index + 1) := by
  have next : nextWord base = wordAddress base 1 := by
    simp [nextWord, wordAddress]
  rw [next, wordAddress_wordAddress, Nat.add_comm]

theorem toNat_wordAddress (base : UInt32) (index : Nat) :
    (wordAddress base index).toNat =
      (base.toNat + 4 * index) % 0x100000000 := by
  simp only [wordAddress, UInt32.toNat_add, UInt32.toNat_mul,
    UInt32.toNat_ofNat', UInt32.reduceToNat]
  omega

theorem wordAddress_eq_iff {base : UInt32} {first second : Nat} :
    wordAddress base first = wordAddress base second ↔
      first % 0x40000000 = second % 0x40000000 := by
  rw [← UInt32.toNat_inj, toNat_wordAddress, toNat_wordAddress]
  have bound := base.toNat_lt
  omega

/-- A branch is a whole number of words away from its target, also when the
address space wraps between the two. -/
theorem four_mul_branchDistance_wordAddress (base : UInt32)
    (index position : Nat) :
    4 * branchDistance (wordAddress base index) (wordAddress base position) =
      ((wordAddress base position).toNat : Int) -
        (wordAddress base index).toNat := by
  have divides : (4 : Int) ∣ ((wordAddress base position).toNat : Int) -
      (wordAddress base index).toNat := by
    rw [toNat_wordAddress, toNat_wordAddress]
    omega
  rw [branchDistance, Int.tdiv_eq_ediv_of_dvd divides]
  exact Int.mul_ediv_cancel' divides

/-- A branch holds the distance in words, as far as its field reaches. -/
theorem branchDistance_wordAddress_mod (base : UInt32) (index position : Nat) :
    branchDistance (wordAddress base index) (wordAddress base position) %
        0x10000 = ((position : Int) - index) % 0x10000 := by
  have distance := four_mul_branchDistance_wordAddress base index position
  rw [toNat_wordAddress, toNat_wordAddress] at distance
  omega

/-- No distance is too large for 32 bits. -/
theorem toInt_ofInt_branchDistance (here target : UInt32) :
    (Int32.ofInt (branchDistance here target)).toInt =
      branchDistance here target := by
  have hereBound : here.toNat < 0x100000000 := here.toNat_lt
  have targetBound : target.toNat < 0x100000000 := target.toNat_lt
  have length : (branchDistance here target).natAbs =
      ((target.toNat : Int) - here.toNat).natAbs / 4 :=
    Int.natAbs_tdiv _ _
  apply Int32.toInt_ofInt_of_le <;> omega

end MipsAssembler
