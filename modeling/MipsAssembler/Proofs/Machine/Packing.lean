import Mathlib.Data.List.Forall2
import Mathlib.Tactic.GCongr
import Mathlib.Tactic.Positivity
import Mathlib.Tactic.Ring
import MipsAssembler.Machine.Word

/-!
# Packed bit fields

Fields that are packed one after another tile a word from the top.  The word is
the sum of what each field puts into its own bits, so every field is read back
from these bits, and what lies beyond the width of a field is lost and touches
no other field.
-/

namespace MipsAssembler

/-! ## Tilings -/

/-- A number, and the bits of a word that its low bits fill. -/
structure PlacedField where
  value : Int
  width : Nat
  /-- The number of bits below the field. -/
  shift : Nat

namespace PlacedField

/-- The number that the low bits of the value denote.  A negative value has
the bits of its two's complement. -/
def residue (field : PlacedField) : Int :=
  field.value % 2 ^ field.width

/-- The sum of the fields, each cut to its width and moved to its place. -/
def total (fields : List PlacedField) : Int :=
  (fields.map fun field => field.residue * 2 ^ field.shift).sum

/-- The fields fill the given number of low bits, the first field on top. -/
inductive Tiles : Nat → List PlacedField → Prop
  | nil : Tiles 0 []
  | cons {size : Nat} {field : PlacedField} {fields : List PlacedField}
      (top : field.width + field.shift = size)
      (below : Tiles field.shift fields) : Tiles size (field :: fields)

theorem total_cons (field : PlacedField) (fields : List PlacedField) :
    total (field :: fields) = field.residue * 2 ^ field.shift + total fields := by
  rw [total, List.map_cons, List.sum_cons, total]

theorem residue_nonneg (field : PlacedField) : 0 ≤ field.residue :=
  Int.emod_nonneg _ (by positivity)

theorem residue_lt (field : PlacedField) : field.residue < 2 ^ field.width :=
  Int.emod_lt_of_pos _ (by positivity)

namespace Tiles

variable {size : Nat} {fields : List PlacedField}

theorem total_nonneg (tiles : Tiles size fields) : 0 ≤ total fields := by
  induction tiles with
  | nil => exact le_refl 0
  | @cons size field fields top below ih =>
      have residueNonneg := residue_nonneg field
      rw [total_cons]
      positivity

theorem total_lt (tiles : Tiles size fields) : total fields < 2 ^ size := by
  induction tiles with
  | nil => exact zero_lt_one
  | @cons size field fields top below ih =>
      have residueLt := residue_lt field
      rw [total_cons]
      calc
        field.residue * 2 ^ field.shift + total fields
        _ < (field.residue + 1) * 2 ^ field.shift := by
          rw [add_mul, one_mul]
          exact add_lt_add_right ih _
        _ ≤ 2 ^ field.width * 2 ^ field.shift := by
          gcongr
          exact residueLt
        _ = 2 ^ size := by rw [← pow_add, top]

/-- Division takes the first field off the others. -/
theorem total_cons_div {field : PlacedField}
    (below : Tiles field.shift fields) :
    total (field :: fields) / 2 ^ field.shift = field.residue := by
  rw [total_cons, add_comm, Int.add_mul_ediv_right _ _ (by positivity),
    Int.ediv_eq_zero_of_lt below.total_nonneg below.total_lt, zero_add]

/-- A field ends at or below the top of the bits that are tiled. -/
theorem width_add_shift_le (tiles : Tiles size fields) {field : PlacedField}
    (member : field ∈ fields) : field.width + field.shift ≤ size := by
  induction tiles with
  | nil => cases member
  | @cons size first fields top below ih =>
      rcases List.mem_cons.mp member with rfl | later
      · exact top.le
      · have inside := ih later
        omega

/-- A field is read back from its bits. -/
theorem total_div_mod (tiles : Tiles size fields) {field : PlacedField}
    (member : field ∈ fields) :
    total fields / 2 ^ field.shift % 2 ^ field.width = field.residue := by
  induction tiles with
  | nil => cases member
  | @cons size first fields top below ih =>
      rcases List.mem_cons.mp member with rfl | later
      · rw [below.total_cons_div]
        exact Int.emod_emod _ _
      · -- The first field begins above the one that is read.
        obtain ⟨gap, shiftEq⟩ :=
          Nat.exists_eq_add_of_le (below.width_add_shift_le later)
        have multiple : first.residue * 2 ^ first.shift =
            first.residue * 2 ^ gap * 2 ^ field.width * 2 ^ field.shift := by
          rw [shiftEq, pow_add, pow_add]
          ring
        rw [total_cons, multiple, add_comm,
          Int.add_mul_ediv_right _ _ (by positivity),
          Int.add_mul_emod_self_right]
        exact ih later

/-- Tilings by fields of the same widths have the same sum only if they agree
field by field. -/
theorem total_eq_iff {others : List PlacedField} (tiles : Tiles size fields)
    (otherTiles : Tiles size others)
    (sameWidths : others.map PlacedField.width =
      fields.map PlacedField.width) :
    total others = total fields ↔
      List.Forall₂ (fun other field => other.residue = field.residue)
        others fields := by
  induction tiles generalizing others with
  | nil =>
      obtain rfl : others = [] := List.map_eq_nil_iff.mp sameWidths
      simp
  | @cons size field fields top below ih =>
      cases otherTiles with
      | nil => cases sameWidths
      | @cons _ other others otherTop otherBelow =>
          obtain ⟨sameWidth, sameBelow⟩ := List.cons.inj sameWidths
          have sameShift : other.shift = field.shift := by omega
          have otherDiv := otherBelow.total_cons_div
          rw [sameShift] at otherBelow otherDiv
          rw [List.forall₂_cons, ← ih otherBelow sameBelow]
          constructor
          · intro sameTotal
            have sameResidue : other.residue = field.residue := by
              rw [← otherDiv, sameTotal, below.total_cons_div]
            rw [total_cons, total_cons, sameResidue, sameShift,
              add_right_inj] at sameTotal
            exact ⟨sameResidue, sameTotal⟩
          · rintro ⟨sameResidue, sameTotal⟩
            rw [total_cons, total_cons, sameResidue, sameShift, sameTotal]

end Tiles

end PlacedField

/-! ## Packing -/

namespace BitField

/-- The number of bits that the fields fill. -/
def totalWidth : List BitField → Nat
  | [] => 0
  | field :: fields => field.width + totalWidth fields

/-- The fields where packing puts them. -/
def placed : List BitField → List PlacedField
  | [] => []
  | field :: fields =>
      ⟨field.value.toNat, field.width, totalWidth fields⟩ :: placed fields

/-- A field that is packed moves what has been packed before up by its
width. -/
theorem foldl_pack (word : Nat) (fields : List BitField) :
    fields.foldl (fun word field => word <<< field.width + field.bits) word =
      word * 2 ^ totalWidth fields + pack fields := by
  induction fields generalizing word with
  | nil => simp [totalWidth, pack]
  | cons field fields ih =>
      rw [pack, List.foldl_cons, List.foldl_cons, ih, ih, totalWidth,
        Nat.shiftLeft_eq, Nat.zero_shiftLeft, pow_add]
      ring

theorem pack_cons (field : BitField) (fields : List BitField) :
    pack (field :: fields) =
      field.bits * 2 ^ totalWidth fields + pack fields := by
  rw [pack, List.foldl_cons, foldl_pack, Nat.zero_shiftLeft, zero_add]

/-- Packing adds up the fields in their places. -/
theorem pack_eq_total (fields : List BitField) :
    (pack fields : Int) = PlacedField.total (placed fields) := by
  induction fields with
  | nil => rfl
  | cons field fields ih =>
      rw [pack_cons, placed, PlacedField.total_cons, ← ih]
      simp [PlacedField.residue, bits, Nat.shiftLeft_eq]

end BitField

/-! ## Instruction words -/

namespace Instruction

/-- Where the fields of the three formats stand in a word. -/
def layout : Instruction → List PlacedField
  | register opcode rs rt rd shamt funct =>
      [⟨opcode.toNat, 6, 26⟩, ⟨rs.toNat, 5, 21⟩, ⟨rt.toNat, 5, 16⟩,
        ⟨rd.toNat, 5, 11⟩, ⟨shamt.toNat, 5, 6⟩, ⟨funct.toNat, 6, 0⟩]
  | immediate opcode rs rt imm =>
      [⟨opcode.toNat, 6, 26⟩, ⟨rs.toNat, 5, 21⟩, ⟨rt.toNat, 5, 16⟩,
        ⟨imm.toInt, 16, 0⟩]
  | jump opcode address => [⟨opcode.toNat, 6, 26⟩, ⟨address.toNat, 26, 0⟩]

theorem tiles_layout (instruction : Instruction) :
    PlacedField.Tiles 32 instruction.layout := by
  cases instruction with
  | register =>
      exact .cons rfl (.cons rfl (.cons rfl (.cons rfl (.cons rfl
        (.cons rfl .nil)))))
  | immediate => exact .cons rfl (.cons rfl (.cons rfl (.cons rfl .nil)))
  | jump => exact .cons rfl (.cons rfl .nil)

/-- The low bits of an immediate operand are those of its two's complement. -/
theorem toNat_toUInt32_emod (imm : Int32) :
    (imm.toUInt32.toNat : Int) % 2 ^ 16 = imm.toInt % 2 ^ 16 := by
  have reduced : imm.toInt = (imm.toUInt32.toNat : Int).bmod (2 ^ 32) :=
    BitVec.toInt_eq_toNat_bmod imm.toBitVec
  have congruent := @Int.bmod_emod imm.toUInt32.toNat (2 ^ 32)
  omega

theorem total_placed_fields (instruction : Instruction) :
    PlacedField.total (BitField.placed instruction.fields) =
      PlacedField.total instruction.layout := by
  cases instruction with
  | register | jump => rfl
  | immediate opcode rs rt imm =>
      have sameResidue : PlacedField.residue ⟨imm.toUInt32.toNat, 16, 0⟩ =
          PlacedField.residue ⟨imm.toInt, 16, 0⟩ := toNat_toUInt32_emod imm
      simp only [fields, BitField.placed, BitField.totalWidth, layout,
        PlacedField.total_cons, Nat.reduceAdd, sameResidue]

theorem toNat_word (instruction : Instruction) :
    (instruction.word.toNat : Int) = PlacedField.total instruction.layout := by
  have packed := BitField.pack_eq_total instruction.fields
  rw [total_placed_fields] at packed
  have small := instruction.tiles_layout.total_lt
  rw [word, UInt32.toNat_ofNat', Nat.mod_eq_of_lt (by omega), packed]

theorem map_width_layout {first second : Instruction}
    (sameFormat : first.formatLetter = second.formatLetter) :
    first.layout.map PlacedField.width =
      second.layout.map PlacedField.width := by
  cases first <;> cases second <;> first | rfl | simp [formatLetter] at sameFormat

/-- A word is the sum of the fields of its format, each of them cut to its
width and moved to its place.  Every field is read back from its own bits, so
no field reaches another one, and the words of two instructions of one format
are equal just if their fields are congruent. -/
theorem word_eq_sum_layout (instruction : Instruction) :
    (instruction.word.toNat : Int) =
        (instruction.layout.map fun field =>
          field.value % 2 ^ field.width * 2 ^ field.shift).sum ∧
      (∀ field ∈ instruction.layout,
        (instruction.word.toNat : Int) / 2 ^ field.shift % 2 ^ field.width =
          field.value % 2 ^ field.width) ∧
      ∀ other : Instruction, other.formatLetter = instruction.formatLetter →
        (other.word = instruction.word ↔
          List.Forall₂
            (fun first second : PlacedField =>
              first.value % 2 ^ first.width = second.value % 2 ^ second.width)
            other.layout instruction.layout) := by
  refine ⟨instruction.toNat_word, fun field member => ?_,
    fun other sameFormat => ?_⟩
  · rw [toNat_word]
    exact instruction.tiles_layout.total_div_mod member
  · rw [← UInt32.toNat_inj, ← Int.natCast_inj, toNat_word, toNat_word]
    exact instruction.tiles_layout.total_eq_iff other.tiles_layout
      (map_width_layout sameFormat)

end Instruction

/-! ### Fields with excess bits -/

namespace ExcessBits

def oversized : Instruction :=
  .immediate 0x48 0 40 (-1)

def other : Instruction :=
  .immediate 0x08 32 8 0x1FFFF

theorem other_word_eq :
    other.formatLetter = oversized.formatLetter ∧
      other.word = oversized.word ∧
      (⟨40, 5, 16⟩ : PlacedField) ∈ oversized.layout ∧
      (oversized.word.toNat : Int) / 2 ^ 16 % 2 ^ 5 = 8 ∧
      (oversized.word.toNat : Int) / 2 ^ 0 % 2 ^ 16 = 0xFFFF := by
  obtain ⟨-, readBack, equalIff⟩ := Instruction.word_eq_sum_layout oversized
  have sameFormat : other.formatLetter = oversized.formatLetter := rfl
  have rtPlaced : (⟨40, 5, 16⟩ : PlacedField) ∈ oversized.layout := by
    simp [oversized, Instruction.layout]
  have immPlaced : (⟨-1, 16, 0⟩ : PlacedField) ∈ oversized.layout := by
    simp [oversized, Instruction.layout]
  refine ⟨sameFormat, (equalIff other sameFormat).mpr ?_, rtPlaced,
    readBack _ rtPlaced, readBack _ immPlaced⟩
  simp [other, oversized, Instruction.layout]

end ExcessBits

end MipsAssembler
