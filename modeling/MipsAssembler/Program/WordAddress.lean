/-!
# Word addresses

Every instruction takes one word of four bytes.  Addresses are 32-bit numbers
and wrap at the top of the address space.
-/

namespace MipsAssembler

/-- The address of the word after the one at the given address. -/
def nextWord (address : UInt32) : UInt32 :=
  address + 4

/-- The address of a word, counted from a base address. -/
def wordAddress (base : UInt32) (index : Nat) : UInt32 :=
  base + 4 * UInt32.ofNat index

/-- The addresses of consecutive words from a base address on. -/
def wordAddresses (base : UInt32) (count : Nat) : List UInt32 :=
  (List.range count).map (wordAddress base)

theorem wordAddress_zero (base : UInt32) : wordAddress base 0 = base := by
  simp [wordAddress]

theorem nextWord_wordAddress (base : UInt32) (index : Nat) :
    nextWord (wordAddress base index) = wordAddress base (index + 1) := by
  simp [nextWord, wordAddress, UInt32.mul_add, UInt32.add_assoc]

end MipsAssembler
