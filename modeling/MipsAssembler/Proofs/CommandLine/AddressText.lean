import MipsAssembler.CommandLine.Run
import MipsAssembler.Proofs.Source.Respelling

/-!
# Addresses and number literals

An address on the command line is a decimal or hexadecimal literal without a
minus sign.  It may have one plus sign in front of its digits and any white
space around it.  Without these, it is accepted just if a source text that
consists of it is read as one number, and both readers find the same number.
-/

namespace MipsAssembler

/-! ## White space around a text -/

namespace Text

/-- There is nothing but white space. -/
def IsSpace (characters : List Char) : Prop :=
  ∀ character ∈ characters, isWhiteSpace character = true

theorem IsSpace.nil : IsSpace [] := by
  intro character member
  cases member

theorem trim_append {before core after : List Char}
    (spaceBefore : IsSpace before) (nonempty : core ≠ [])
    (ordinary : ∀ character ∈ core, isWhiteSpace character = false)
    (spaceAfter : IsSpace after) : trim (before ++ core ++ after) = core := by
  have front : (before ++ (core ++ after)).dropWhile isWhiteSpace =
      core ++ after := by
    apply dropWhile_append_of_stops spaceBefore
    obtain ⟨first, rest, rfl⟩ := List.exists_cons_of_ne_nil nonempty
    rintro character ⟨⟩
    exact ordinary first List.mem_cons_self
  have back : (after.reverse ++ core.reverse).dropWhile isWhiteSpace =
      core.reverse := by
    apply dropWhile_append_of_stops
    · exact fun character member =>
        spaceAfter character (List.mem_reverse.mp member)
    · exact fun character atHead => ordinary character
        (List.mem_reverse.mp (List.mem_of_mem_head? atHead))
  rw [trim, List.append_assoc, front, List.reverse_append, back,
    List.reverse_reverse]

theorem exists_trim (characters : List Char) :
    ∃ before after, IsSpace before ∧ IsSpace after ∧
      characters = before ++ trim characters ++ after := by
  have isSpace (text : List Char) : IsSpace (text.takeWhile isWhiteSpace) :=
    fun character member => List.mem_takeWhile_imp member
  refine ⟨characters.takeWhile isWhiteSpace,
    ((characters.dropWhile isWhiteSpace).reverse.takeWhile
      isWhiteSpace).reverse, isSpace _,
    fun character member => isSpace _ character (List.mem_reverse.mp member), ?_⟩
  rw [trim, List.append_assoc, ← List.reverse_append,
    List.takeWhile_append_dropWhile, List.reverse_reverse,
    List.takeWhile_append_dropWhile]

end Text

/-- The literal may be an address: it is neither negative nor binary. -/
structure Literal.IsAddress (literal : Literal) : Prop extends
    literal.IsWellFormed where
  unsigned : literal.isNegative = false
  notBinary : literal.radix ≠ .binary

namespace Literal.IsAddress

variable {literal : Literal}

theorem spelling_eq (isAddress : literal.IsAddress) :
    literal.spelling = literal.marker ++ literal.digits := by
  simp [spelling, lead, isAddress.unsigned]

theorem value_eq (isAddress : literal.IsAddress) :
    literal.value = literal.radix.value literal.digits := by
  simp [value, isAddress.unsigned]

/-- The lower end of the range of literals does not matter to an address. -/
theorem fits_iff (isAddress : literal.IsAddress) :
    Fits literal.value ↔
      literal.radix.value literal.digits < UInt32.size := by
  have sizeEq : UInt32.size = 0x100000000 := rfl
  rw [isAddress.value_eq, Fits, sizeEq]
  omega

end Literal.IsAddress

namespace CommandLine

variable {radix : Radix} {digits : List Char} {number : Nat}

/-! ## Digits -/

/-- The size is checked at each digit, but only that of the whole matters. -/
theorem readDigits_value_eq_ok_iff {before : List Char}
    (fits : radix.value before < UInt32.size) :
    readDigits radix (radix.value before) digits = .ok number ↔
      (∀ character ∈ digits, radix.isDigit character = true) ∧
        radix.value (before ++ digits) = number ∧ number < UInt32.size := by
  induction digits generalizing before with
  | nil =>
      rw [readDigits, List.append_nil, Except.ok.injEq]
      constructor
      · rintro rfl
        exact ⟨List.forall_mem_nil _, rfl, fits⟩
      · exact fun accepted => accepted.2.1
  | cons character digits ih =>
      rw [readDigits]
      cases found : radix.digitValue? character with
      | none =>
          have foreign : radix.isDigit character = false := by
            rw [Radix.isDigit, found]
            rfl
          simp [foreign]
      | some digit =>
          have isDigit : radix.isDigit character = true := by
            rw [Radix.isDigit, found]
            rfl
          have extended : radix.value before * radix.base + digit =
              radix.value (before ++ [character]) := by
            rw [Radix.value_append_singleton, found, Option.getD_some]
          rw [List.append_cons, List.forall_mem_cons, and_iff_right isDigit]
          simp only [extended]
          split
          · next stillFits => exact ih stillFits
          · next tooLarge =>
            constructor
            · intro accepted
              cases accepted
            · rintro ⟨-, rfl, small⟩
              exact absurd (Nat.lt_of_le_of_lt
                (Radix.value_le_value_append _ digits) small) tooLarge

theorem readDigits_eq_ok_iff :
    readDigits radix 0 digits = .ok number ↔
      (∀ character ∈ digits, radix.isDigit character = true) ∧
        radix.value digits = number ∧ number < UInt32.size := by
  have fits : radix.value [] < UInt32.size := show 0 < UInt32.size by decide
  exact readDigits_value_eq_ok_iff fits

/-! ## Spellings of addresses -/

/-- At most a plus sign. -/
def IsPlus (sign : List Char) : Prop :=
  sign = [] ∨ sign = ['+']

theorem readUnsigned_append {sign : List Char} (isPlus : IsPlus sign)
    (nonempty : digits ≠ [])
    (isDigit : ∀ character ∈ digits, radix.isDigit character = true) :
    readUnsigned radix (sign ++ digits) = readDigits radix 0 digits := by
  have unsigned (rest : List Char) : digits ≠ '+' :: rest := by
    rintro rfl
    have bounds := Radix.toNat_of_isDigit (isDigit '+' List.mem_cons_self)
    simp only [Char.reduceToNat] at bounds
    omega
  rcases isPlus with rfl | rfl
  · rw [List.nil_append, readUnsigned]
    · exact nonempty
    · exact unsigned []
    · exact unsigned
  · rw [List.singleton_append, readUnsigned]
    exact nonempty

theorem readTrimmedAddress_spelling {literal : Literal} {sign : List Char}
    (isAddress : literal.IsAddress) (isPlus : IsPlus sign) :
    readTrimmedAddress (literal.marker ++ sign ++ literal.digits) =
      readDigits literal.radix 0 literal.digits := by
  obtain ⟨isNegative, marker, radix, digits⟩ := literal
  obtain ⟨⟨marked, nonempty, isDigit⟩, -, notBinary⟩ := isAddress
  have unsigned := readUnsigned_append isPlus nonempty isDigit
  cases marked with
  | hexadecimal | upperHexadecimal => exact unsigned
  | binary | upperBinary => exact absurd rfl notBinary
  | decimal =>
      rw [← unsigned, List.nil_append]
      -- Decimal digits hold no letter, so they do not begin with a marker.
      have notMarked (letter : Char) (rest : List Char)
          (foreign : Radix.decimal.isDigit letter = false) :
          sign ++ digits ≠ '0' :: letter :: rest := by
        rintro split
        rcases isPlus with rfl | rfl
        · rw [List.nil_append] at split
          subst split
          have digit := isDigit letter (by simp)
          rw [foreign] at digit
          cases digit
        · cases split
      rw [readTrimmedAddress]
      · exact fun rest => notMarked 'x' rest (by decide)
      · exact fun rest => notMarked 'X' rest (by decide)

theorem exists_spelling_of_readUnsigned {text : List Char}
    (accepted : readUnsigned radix text = .ok number) :
    ∃ sign digits, IsPlus sign ∧ digits ≠ [] ∧
      (∀ character ∈ digits, radix.isDigit character = true) ∧
      text = sign ++ digits := by
  unfold readUnsigned at accepted
  split at accepted
  · cases accepted
  · cases accepted
  · next digits notAlone =>
    refine ⟨['+'], digits, .inr rfl, ?_, (readDigits_eq_ok_iff.mp accepted).1,
      rfl⟩
    rintro rfl
    exact notAlone rfl
  · next nonempty _ _ =>
    exact ⟨[], text, .inl rfl, nonempty, (readDigits_eq_ok_iff.mp accepted).1,
      rfl⟩

theorem exists_spelling_of_readTrimmedAddress {text : List Char}
    (accepted : readTrimmedAddress text = .ok number) :
    ∃ literal : Literal, ∃ sign, literal.IsAddress ∧ IsPlus sign ∧
      text = literal.marker ++ sign ++ literal.digits := by
  have withMarker {radix : Radix} {marker rest : List Char}
      (marked : radix.MarkedBy marker) (notBinary : radix ≠ .binary)
      (read : readUnsigned radix rest = .ok number) :
      ∃ literal : Literal, ∃ sign, literal.IsAddress ∧ IsPlus sign ∧
        marker ++ rest = literal.marker ++ sign ++ literal.digits := by
    obtain ⟨sign, digits, isPlus, nonempty, isDigit, rfl⟩ :=
      exists_spelling_of_readUnsigned read
    exact ⟨⟨false, marker, radix, digits⟩, sign,
      ⟨⟨marked, nonempty, isDigit⟩, rfl, notBinary⟩, isPlus,
      (List.append_assoc ..).symm⟩
  unfold readTrimmedAddress at accepted
  split at accepted
  · exact withMarker .hexadecimal nofun accepted
  · exact withMarker .upperHexadecimal nofun accepted
  · exact withMarker .decimal nofun accepted

theorem isWhiteSpace_of_mem_spelling {literal : Literal} {sign : List Char}
    (isAddress : literal.IsAddress) (isPlus : IsPlus sign) :
    ∀ character ∈ literal.marker ++ sign ++ literal.digits,
      Text.isWhiteSpace character = false := by
  have ordinary {character : Char} (member : character ∈ literal.spelling) :
      Text.isWhiteSpace character = false :=
    (Bool.or_eq_false_iff.mp (Source.isTerminator_of_mem_spelling
      isAddress.toIsWellFormed character member)).1
  rw [isAddress.spelling_eq] at ordinary
  intro character member
  rcases List.mem_append.mp member with member | inDigits
  · rcases List.mem_append.mp member with inMarker | inSign
    · exact ordinary (List.mem_append_left _ inMarker)
    · rcases isPlus with rfl | rfl
      · cases inSign
      · rw [List.mem_singleton.mp inSign]
        decide
  · exact ordinary (List.mem_append_right _ inDigits)

/-! ## Addresses in white space -/

theorem readAddress_eq_ok_iff {text : String} {address : UInt32} :
    readAddress text = .ok address ↔
      readTrimmedAddress (Text.trim text.toList) = .ok address.toNat := by
  rw [readAddress]
  cases accepted : readTrimmedAddress (Text.trim text.toList) with
  | error fault => exact iff_of_false nofun nofun
  | ok number =>
      obtain ⟨literal, sign, isAddress, isPlus, trimmed⟩ :=
        exists_spelling_of_readTrimmedAddress accepted
      rw [trimmed, readTrimmedAddress_spelling isAddress isPlus,
        readDigits_eq_ok_iff] at accepted
      constructor
      · rintro ⟨⟩
        exact congrArg _ (UInt32.toNat_ofNat_of_lt' accepted.2.2).symm
      · rintro ⟨⟩
        exact congrArg _ UInt32.ofNat_toNat

theorem readAddress_spaced_eq_ok_iff {literal : Literal}
    {before sign after : List Char} {address : UInt32}
    (spaceBefore : Text.IsSpace before) (isAddress : literal.IsAddress)
    (isPlus : IsPlus sign) (spaceAfter : Text.IsSpace after) :
    readAddress (String.ofList
        (before ++ (literal.marker ++ sign ++ literal.digits) ++ after)) =
      .ok address ↔ literal.radix.value literal.digits = address.toNat := by
  have nonempty : literal.marker ++ sign ++ literal.digits ≠ [] :=
    List.append_ne_nil_of_right_ne_nil _ isAddress.digits_ne_nil
  rw [readAddress_eq_ok_iff, String.toList_ofList,
    Text.trim_append spaceBefore nonempty
      (isWhiteSpace_of_mem_spelling isAddress isPlus) spaceAfter,
    readTrimmedAddress_spelling isAddress isPlus,
    readDigits_eq_ok_iff, and_iff_right isAddress.isDigit]
  exact and_iff_left address.toNat_lt

theorem chosenBase_eq_ok_iff {configured address : UInt32} {text : String} :
    chosenBase configured (some text) = .ok address ↔
      readAddress text = .ok address := by
  rw [chosenBase]
  cases readAddress text with
  | error fault => exact iff_of_false nofun nofun
  | ok number => simp [Except.mapError]

theorem chosenBase_spelling_eq_ok_iff {literal : Literal}
    {configured address : UInt32} (isAddress : literal.IsAddress) :
    chosenBase configured (some (String.ofList literal.spelling)) =
      .ok address ↔ literal.radix.value literal.digits = address.toNat := by
  have spaced : literal.spelling =
      [] ++ (literal.marker ++ [] ++ literal.digits) ++ [] := by
    rw [isAddress.spelling_eq, List.append_nil, List.append_nil, List.nil_append]
  rw [chosenBase_eq_ok_iff, spaced]
  exact readAddress_spaced_eq_ok_iff .nil isAddress (.inl rfl) .nil

/-- Addresses are the unsigned decimal and hexadecimal literals whose values fit
a word.  There may be white space around them and a plus sign in front of their
digits.  Such a literal by itself is accepted as the base address just if it is
read as one number, and it is the same number. -/
theorem readAddress_agrees_with_literals (instructions : InstructionSet)
    (configured : UInt32) :
    (∀ text address, readAddress text = .ok address ↔
      ∃ before after sign, ∃ literal : Literal,
        Text.IsSpace before ∧ Text.IsSpace after ∧ IsPlus sign ∧
        literal.IsAddress ∧
        text.toList =
          before ++ (literal.marker ++ sign ++ literal.digits) ++ after ∧
        literal.radix.value literal.digits = address.toNat) ∧
      ∀ literal : Literal, literal.IsAddress → ∀ tokenText,
        Token.ofSource instructions (String.ofList literal.spelling) =
            .ok [⟨.number, tokenText⟩] ↔
          ∃ address, chosenBase configured
              (some (String.ofList literal.spelling)) = .ok address ∧
            tokenText = Decimal.write address.toNat := by
  constructor
  · intro text address
    constructor
    · intro accepted
      obtain ⟨before, after, spaceBefore, spaceAfter, split⟩ :=
        Text.exists_trim text.toList
      obtain ⟨literal, sign, isAddress, isPlus, trimmed⟩ :=
        exists_spelling_of_readTrimmedAddress
          (readAddress_eq_ok_iff.mp accepted)
      rw [trimmed] at split
      rw [← String.ofList_toList (s := text), split,
        readAddress_spaced_eq_ok_iff spaceBefore isAddress isPlus spaceAfter]
        at accepted
      exact ⟨before, after, sign, literal, spaceBefore, spaceAfter, isPlus,
        isAddress, split, accepted⟩
    · rintro ⟨before, after, sign, literal, spaceBefore, spaceAfter, isPlus,
        isAddress, split, valueEq⟩
      rw [← String.ofList_toList (s := text), split]
      exact (readAddress_spaced_eq_ok_iff spaceBefore isAddress isPlus
        spaceAfter).mpr valueEq
  · intro literal isAddress tokenText
    rw [Token.ofSource_spelling_eq_ok_iff isAddress.toIsWellFormed,
      isAddress.fits_iff, isAddress.value_eq]
    simp only [chosenBase_spelling_eq_ok_iff isAddress]
    constructor
    · rintro ⟨fits, rfl⟩
      have numberEq := UInt32.toNat_ofNat_of_lt' fits
      exact ⟨.ofNat _, numberEq.symm, by rw [numberEq]⟩
    · rintro ⟨address, numberEq, rfl⟩
      rw [numberEq]
      exact ⟨address.toNat_lt, rfl⟩

/-- The plus sign stands behind the marker, not in front of it. -/
example : readAddress "+0x1" = .error .invalidDigit := by
  decide +kernel

/-! ### The greatest address -/

namespace GreatestAddress

def literal : Literal :=
  ⟨false, ['0', 'X'], .hexadecimal,
    ['0', '0', 'f', 'F', 'f', 'F', 'f', 'F', 'f', 'F']⟩

theorem isAddress : literal.IsAddress where
  marked := .upperHexadecimal
  digits_ne_nil := nofun
  isDigit := List.all_eq_true.mp rfl
  unsigned := rfl
  notBinary := nofun

theorem accepted_everywhere :
    literal.IsAddress ∧
      chosenBase 0 (some "0X00fFfFfFfF") = .ok 0xFFFFFFFF ∧
      Token.ofSource Mips32.instructionSet "0X00fFfFfFfF" =
        .ok [⟨.number, "4294967295"⟩] ∧
      readAddress "\u3000\t0X+00fFfFfFfF\n" = .ok 0xFFFFFFFF := by
  obtain ⟨spelled, agrees⟩ :=
    readAddress_agrees_with_literals Mips32.instructionSet 0
  have accepted : chosenBase 0 (some "0X00fFfFfFfF") = .ok 0xFFFFFFFF := by
    decide +kernel
  refine ⟨isAddress, accepted, ?_, ?_⟩
  · exact (agrees literal isAddress _).mpr
      ⟨0xFFFFFFFF, accepted, by decide +kernel⟩
  · exact (spelled _ _).mpr ⟨['\u3000', '\t'], ['\n'], ['+'], literal,
      List.all_eq_true.mp rfl, List.all_eq_true.mp rfl, .inr rfl, isAddress,
      by decide +kernel, by decide +kernel⟩

end GreatestAddress

end CommandLine

end MipsAssembler
