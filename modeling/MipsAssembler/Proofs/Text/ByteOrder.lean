import Mathlib.Algebra.Group.Nat.Defs

/-!
# The order of texts and of their bytes

UTF-8 keeps order.  If one text comes before another character by character,
then it comes before it byte by byte: where two codes have as many bytes, these
are their digits in base 64, the most significant ones first, and where one code
has more bytes than the other its first byte is greater.
-/

namespace MipsAssembler.Text

/-- The bytes of the text in UTF-8. -/
def bytes (text : String) : List UInt8 :=
  text.toUTF8.data.toList

theorem bytes_eq_flatMap (text : String) :
    bytes text = text.toList.flatMap String.utf8EncodeChar := by
  have encoded : text.toUTF8 = text.toList.utf8Encode := by
    rw [String.toUTF8_eq_toByteArray, ← String.toByteArray_ofList,
      String.ofList_toList]
  rw [bytes, encoded, List.utf8Encode, List.toList_data_toByteArray]

/-! ## One character -/

/-- The bytes that hold so many of the last digits of a code in base 64. -/
def continuation : Nat → Nat → List UInt8
  | 0, _ => []
  | count + 1, code =>
      UInt8.ofNat (code / 64 ^ count % 64 + 0x80) :: continuation count code

/-- The first byte of a code, and how many bytes follow it. -/
inductive LeadsWith (code : Nat) : Nat → Nat → Prop
  | one (small : code < 0x80) : LeadsWith code code 0
  | two (large : 0x80 ≤ code) (small : code < 0x800) :
      LeadsWith code (code / 64 + 0xC0) 1
  | three (large : 0x800 ≤ code) (small : code < 0x10000) :
      LeadsWith code (code / 64 ^ 2 + 0xE0) 2
  | four (large : 0x10000 ≤ code) (small : code < 0x110000) :
      LeadsWith code (code / 64 ^ 3 + 0xF0) 3

theorem exists_utf8EncodeChar_eq (character : Char) :
    ∃ lead count, LeadsWith character.toNat lead count ∧
      String.utf8EncodeChar character =
        UInt8.ofNat lead :: continuation count character.toNat := by
  have bounded : character.val.toNat < 0x110000 := by
    have valid := character.valid
    simp only [UInt32.isValidChar, Nat.isValidChar] at valid
    omega
  unfold String.utf8EncodeChar Char.toNat
  generalize character.val.toNat = code at bounded ⊢
  dsimp only
  split
  · exact ⟨_, 0, .one (by omega), rfl⟩
  split
  · have lead : code / 64 % 0x20 = code / 64 := by omega
    refine ⟨_, 1, .two (by omega) (by omega), ?_⟩
    simp [continuation, lead]
  split
  · have lead : code / 4096 % 0x10 = code / 4096 := by omega
    refine ⟨_, 2, .three (by omega) (by omega), ?_⟩
    simp [continuation, lead]
  · have lead : code / 262144 % 8 = code / 262144 := by omega
    refine ⟨_, 3, .four (by omega) bounded, ?_⟩
    simp [continuation, lead]

theorem ofNat_cons_lt_iff {first second : Nat} {rest other : List UInt8}
    (firstFits : first < 0x100) (secondFits : second < 0x100) :
    UInt8.ofNat first :: rest < UInt8.ofNat second :: other ↔
      first < second ∨ first = second ∧ rest < other := by
  rw [List.cons_lt_cons_iff, UInt8.lt_iff_toNat_lt, ← UInt8.toNat_inj,
    UInt8.toNat_ofNat_of_lt' firstFits, UInt8.toNat_ofNat_of_lt' secondFits]

/-- The first digit that differs decides, whatever follows the digits. -/
theorem continuation_append_lt {count first second : Nat}
    (before : first % 64 ^ count < second % 64 ^ count)
    (rest other : List UInt8) :
    continuation count first ++ rest < continuation count second ++ other := by
  induction count with
  | zero => omega
  | succ count ih =>
      rw [Nat.pow_succ, Nat.mod_mul, Nat.mod_mul] at before
      have firstFits : first % 64 ^ count < 64 ^ count :=
        Nat.mod_lt _ (Nat.pow_pos (by decide))
      rw [continuation, continuation, List.cons_append, List.cons_append,
        ofNat_cons_lt_iff (by omega) (by omega)]
      rcases Nat.lt_trichotomy (first / 64 ^ count % 64)
        (second / 64 ^ count % 64) with smaller | same | larger
      · left
        omega
      · right
        rw [same] at before
        exact ⟨by omega, ih (Nat.lt_of_add_lt_add_right before)⟩
      · have product := Nat.mul_le_mul_left (64 ^ count) larger
        rw [Nat.mul_succ] at product
        omega

/-- Whatever follows two characters, the bytes of the smaller one come first. -/
theorem utf8EncodeChar_append_lt {first second : Char} (before : first < second)
    (rest other : List UInt8) :
    String.utf8EncodeChar first ++ rest <
      String.utf8EncodeChar second ++ other := by
  have smaller : first.toNat < second.toNat := before
  obtain ⟨lead, count, leads, firstEq⟩ := exists_utf8EncodeChar_eq first
  obtain ⟨otherLead, otherCount, otherLeads, secondEq⟩ :=
    exists_utf8EncodeChar_eq second
  have fits : lead < 0x100 ∧ otherLead < 0x100 := by
    cases leads <;> cases otherLeads <;> omega
  -- First bytes of codes with different numbers of bytes are far apart.
  have decided : lead < otherLead ∨ lead = otherLead ∧ count = otherCount ∧
      first.toNat % 64 ^ count < second.toNat % 64 ^ count := by
    cases leads <;> cases otherLeads <;> omega
  rw [firstEq, secondEq, List.cons_append, List.cons_append,
    ofNat_cons_lt_iff fits.1 fits.2]
  refine decided.imp_right ?_
  rintro ⟨sameLead, rfl, lower⟩
  exact ⟨sameLead, continuation_append_lt lower rest other⟩

/-! ## Texts -/

theorem flatMap_utf8EncodeChar_lt {first second : List Char}
    (before : first < second) :
    first.flatMap String.utf8EncodeChar <
      second.flatMap String.utf8EncodeChar := by
  induction before with
  | @nil character rest =>
      obtain ⟨lead, count, -, encoded⟩ := exists_utf8EncodeChar_eq character
      rw [List.flatMap_cons, encoded]
      exact List.nil_lt_cons _ _
  | cons rest ih =>
      rw [List.flatMap_cons, List.flatMap_cons]
      exact List.append_left_lt ih
  | rel before =>
      rw [List.flatMap_cons, List.flatMap_cons]
      exact utf8EncodeChar_append_lt before _ _

theorem bytes_lt_bytes {first second : String} (before : first < second) :
    bytes first < bytes second := by
  rw [bytes_eq_flatMap, bytes_eq_flatMap]
  exact flatMap_utf8EncodeChar_lt before

end MipsAssembler.Text
