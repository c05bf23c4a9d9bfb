import MipsAssembler.Machine.InstructionSet
import MipsAssembler.Proofs.Machine.Word

/-!
# Reading the fields of a machine word

A field is read from a word by division, whatever format the word has.  The
codes of a category are the fields that all of its words share; two categories
whose codes differ in some field have no word in common.
-/

namespace MipsAssembler

/-! ## Fields -/

inductive WordField
  | opcode
  | rs
  | rt
  | rd
  | shamt
  | funct
  | imm
  | address
  deriving DecidableEq

namespace WordField

/-- The value of the lowest bit of the field. -/
def unit : WordField → Nat
  | opcode => 0x4000000
  | rs => 0x200000
  | rt => 0x10000
  | rd => 0x800
  | shamt => 0x40
  | funct | imm | address => 1

/-- The number of values that the field can hold. -/
def capacity : WordField → Nat
  | opcode | funct => 0x40
  | rs | rt | rd | shamt => 0x20
  | imm => 0x10000
  | address => 0x4000000

def read (field : WordField) (word : Nat) : Nat :=
  word / field.unit % field.capacity

theorem read_registerWord {opcode rs rt rd shamt funct : Nat}
    (opcodeFits : opcode < 0x40) (rsFits : rs < 0x20) (rtFits : rt < 0x20)
    (rdFits : rd < 0x20) (shamtFits : shamt < 0x20) (functFits : funct < 0x40) :
    WordField.opcode.read (registerWord opcode rs rt rd shamt funct) = opcode ∧
      WordField.rs.read (registerWord opcode rs rt rd shamt funct) = rs ∧
      WordField.rt.read (registerWord opcode rs rt rd shamt funct) = rt ∧
      WordField.rd.read (registerWord opcode rs rt rd shamt funct) = rd ∧
      WordField.shamt.read (registerWord opcode rs rt rd shamt funct) = shamt ∧
      WordField.funct.read (registerWord opcode rs rt rd shamt funct) =
        funct := by
  simp only [read, unit, capacity, registerWord]
  omega

theorem read_immediateWord {opcode rs rt imm : Nat} (opcodeFits : opcode < 0x40)
    (rsFits : rs < 0x20) (rtFits : rt < 0x20) (immFits : imm < 0x10000) :
    WordField.opcode.read (immediateWord opcode rs rt imm) = opcode ∧
      WordField.rs.read (immediateWord opcode rs rt imm) = rs ∧
      WordField.rt.read (immediateWord opcode rs rt imm) = rt ∧
      WordField.imm.read (immediateWord opcode rs rt imm) = imm := by
  simp only [read, unit, capacity, immediateWord]
  omega

theorem read_jumpWord {opcode address : Nat} (opcodeFits : opcode < 0x40)
    (addressFits : address < 0x4000000) :
    WordField.opcode.read (jumpWord opcode address) = opcode ∧
      WordField.address.read (jumpWord opcode address) = address := by
  simp only [read, unit, capacity, jumpWord]
  omega

theorem read_shamt_word (opcode rs rt rd shamt funct : UInt32) :
    WordField.shamt.read
        (Instruction.register opcode rs rt rd shamt funct).word.toNat =
      shamt.toNat % 0x20 := by
  rw [Instruction.toNat_word_register]
  exact (read_registerWord (Nat.mod_lt _ (by decide))
    (Nat.mod_lt _ (by decide)) (Nat.mod_lt _ (by decide))
    (Nat.mod_lt _ (by decide)) (Nat.mod_lt _ (by decide))
    (Nat.mod_lt _ (by decide))).2.2.2.2.1

theorem read_imm_word (opcode rs rt : UInt32) (imm : Int32) :
    WordField.imm.read (Instruction.immediate opcode rs rt imm).word.toNat =
      imm.toUInt32.toNat % 0x10000 := by
  rw [Instruction.toNat_word_immediate]
  exact (read_immediateWord (Nat.mod_lt _ (by decide))
    (Nat.mod_lt _ (by decide)) (Nat.mod_lt _ (by decide))
    (Nat.mod_lt _ (by decide))).2.2.2

theorem read_address_word (opcode target : UInt32) :
    WordField.address.read (Instruction.jump opcode target).word.toNat =
      target.toNat % 0x4000000 := by
  rw [Instruction.toNat_word_jump]
  exact (read_jumpWord (Nat.mod_lt _ (by decide))
    (Nat.mod_lt _ (by decide))).2

/-- The number that the bits of the field denote in two's complement. -/
def readSigned (field : WordField) (word : Nat) : Int :=
  (field.read word : Int).bmod field.capacity

theorem readSigned_imm_word (opcode rs rt : UInt32) (integer : Int) :
    WordField.imm.readSigned
        (Instruction.immediate opcode rs rt (Int32.ofInt integer)).word.toNat =
      integer.bmod 0x10000 := by
  have nonnegative : 0 ≤ integer % 0x10000 := by omega
  rw [readSigned, read_imm_word, toNat_int32_ofInt_mod,
    Int.toNat_of_nonneg nonnegative]
  exact Int.emod_bmod integer 0x10000

end WordField

/-! ## Codes -/

namespace Category

/-- The fields that all words of the category share, with their values. -/
def codes : Category → List (WordField × Nat)
  | threeRegister funct | twoRegister funct | shift funct | oneRegister funct _ =>
      [(.opcode, 0), (.funct, funct.toNat)]
  | extended opcode funct => [(.opcode, opcode.toNat), (.funct, funct.toNat)]
  | branch opcode (.againstZero selector) =>
      [(.opcode, opcode.toNat), (.rt, selector.toNat)]
  | immediate opcode | loadUpper opcode | branch opcode .betweenRegisters
  | memory opcode | jump opcode => [(.opcode, opcode.toNat)]

/-- The word has the codes of the category. -/
def Matches (category : Category) (word : Nat) : Prop :=
  ∀ code ∈ category.codes, code.1.read word = code.2

instance (category : Category) (word : Nat) :
    Decidable (category.Matches word) :=
  inferInstanceAs (Decidable (∀ code ∈ category.codes, _))

/-- Some field has different values in the codes of the two categories. -/
def Contradicts (first second : Category) : Prop :=
  ∃ code ∈ first.codes, ∃ other ∈ second.codes,
    code.1 = other.1 ∧ code.2 ≠ other.2

instance (first second : Category) : Decidable (first.Contradicts second) :=
  inferInstanceAs (Decidable (∃ code ∈ first.codes, _))

theorem Contradicts.not_matches {first second : Category}
    (contradicts : first.Contradicts second) {word : Nat}
    (firstMatches : first.Matches word) : ¬ second.Matches word := by
  obtain ⟨code, inFirst, other, inSecond, sameField, different⟩ := contradicts
  intro secondMatches
  have read := firstMatches code inFirst
  rw [sameField, secondMatches other inSecond] at read
  exact different read.symm

end Category

/-! ## Rows by their codes -/

/-- The row of a table whose codes the word has. -/
def descriptorOf? (descriptors : List Descriptor) (word : Nat) :
    Option Descriptor :=
  descriptors.find? fun row => row.category.Matches word

/-- If any two rows contradict each other, only one can have the codes of a
word. -/
theorem descriptorOf?_eq_some {descriptors : List Descriptor}
    (distinct : ∀ first ∈ descriptors, ∀ second ∈ descriptors,
      first ≠ second → first.category.Contradicts second.category)
    {row : Descriptor} (known : row ∈ descriptors) {word : Nat}
    (matched : row.category.Matches word) :
    descriptorOf? descriptors word = some row := by
  cases found : descriptorOf? descriptors word with
  | none =>
      have unmatched := List.find?_eq_none.mp found row known
      simp [matched] at unmatched
  | some other =>
      have otherMatched : other.category.Matches word := by
        simpa using List.find?_some found
      have otherKnown : other ∈ descriptors := List.mem_of_find?_eq_some found
      by_cases same : other = row
      · rw [same]
      · have contradicts := distinct other otherKnown row known same
        exact absurd matched (contradicts.not_matches otherMatched)

end MipsAssembler
