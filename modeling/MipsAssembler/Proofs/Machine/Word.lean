import MipsAssembler.Machine.Word

/-!
# The fields of a machine word

A machine word is the sum of its fields, each cut to its width and moved to
its place.
-/

namespace MipsAssembler

/-! ## Words of the three formats -/

/-- The word with the given fields in the register format. -/
def registerWord (opcode rs rt rd shamt funct : Nat) : Nat :=
  opcode * 0x4000000 + rs * 0x200000 + rt * 0x10000 + rd * 0x800 +
    shamt * 0x40 + funct

/-- The word with the given fields in the immediate format. -/
def immediateWord (opcode rs rt imm : Nat) : Nat :=
  opcode * 0x4000000 + rs * 0x200000 + rt * 0x10000 + imm

/-- The word with the given fields in the jump format. -/
def jumpWord (opcode address : Nat) : Nat :=
  opcode * 0x4000000 + address

namespace Instruction

theorem toNat_word_register (opcode rs rt rd shamt funct : UInt32) :
    (register opcode rs rt rd shamt funct).word.toNat =
      registerWord (opcode.toNat % 0x40) (rs.toNat % 0x20) (rt.toNat % 0x20)
        (rd.toNat % 0x20) (shamt.toNat % 0x20) (funct.toNat % 0x40) := by
  simp only [word, fields, BitField.pack, BitField.bits, List.foldl_cons,
    List.foldl_nil, Nat.shiftLeft_eq, Nat.reducePow, Nat.one_mul,
    UInt32.toNat_ofNat', registerWord]
  omega

theorem toNat_word_immediate (opcode rs rt : UInt32) (imm : Int32) :
    (immediate opcode rs rt imm).word.toNat =
      immediateWord (opcode.toNat % 0x40) (rs.toNat % 0x20) (rt.toNat % 0x20)
        (imm.toUInt32.toNat % 0x10000) := by
  simp only [word, fields, BitField.pack, BitField.bits, List.foldl_cons,
    List.foldl_nil, Nat.shiftLeft_eq, Nat.reducePow, Nat.one_mul,
    UInt32.toNat_ofNat', immediateWord]
  omega

theorem toNat_word_jump (opcode address : UInt32) :
    (jump opcode address).word.toNat =
      jumpWord (opcode.toNat % 0x40) (address.toNat % 0x4000000) := by
  simp only [word, fields, BitField.pack, BitField.bits, List.foldl_cons,
    List.foldl_nil, Nat.shiftLeft_eq, Nat.reducePow, Nat.one_mul,
    UInt32.toNat_ofNat', jumpWord]
  omega

end Instruction

/-! ## Integers in fields -/

theorem toNat_uint32_ofInt (integer : Int) :
    (UInt32.ofInt integer).toNat = (integer % 0x100000000).toNat := by
  simp only [UInt32.ofInt, UInt32.toNat_ofNat', Int.reducePow, Nat.reducePow]
  omega

theorem toNat_int32_ofInt (integer : Int) :
    (Int32.ofInt integer).toUInt32.toNat = (integer % 0x100000000).toNat := by
  change (BitVec.ofInt 32 integer).toNat = _
  rw [BitVec.toNat_ofInt]
  rfl

/-- A shift amount fills its field with its low five bits. -/
theorem toNat_uint32_ofInt_mod (amount : Int) :
    (UInt32.ofInt amount).toNat % 0x20 = (amount % 0x20).toNat := by
  rw [toNat_uint32_ofInt]
  omega

/-- An immediate operand fills its field with its low sixteen bits. -/
theorem toNat_int32_ofInt_mod (integer : Int) :
    (Int32.ofInt integer).toUInt32.toNat % 0x10000 =
      (integer % 0x10000).toNat := by
  rw [toNat_int32_ofInt]
  omega

end MipsAssembler
