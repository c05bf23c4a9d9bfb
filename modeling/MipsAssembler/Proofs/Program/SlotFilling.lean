import MipsAssembler.Proofs.Numeral.Digits
import MipsAssembler.Proofs.Program.Phrase
import MipsAssembler.Source.Literal

/-!
# Slots and operand lists

A run fills the slots of a category one by one, and a manual lists operands.
The two agree: the tokens that fill the slots of a category are those that
spell operands in its form, and what the category makes of the stored values
is what the operands denote.
-/

namespace MipsAssembler

variable {instructions : InstructionSet} {symbols : SymbolTable}

/-! ## Filling slots -/

/-- A number that a source text may hold is a number for a slot. -/
theorem Token.integer?_write {number : Int} (fits : Literal.Fits number) :
    Token.integer? ⟨.number, Decimal.write number⟩ = some number := by
  obtain ⟨lower, upper⟩ := fits
  rw [Token.integer?, Decimal.write, String.toList_ofList,
    Decimal.read?_characters, Option.filter_some, if_pos]
  rw [decide_eq_true_iff]
  omega

namespace Slot

/-- The operands after the text of a token of its kind is put into a slot. -/
def store? (instructions : InstructionSet) (symbols : SymbolTable)
    (text : String) (operands : Operands) : Slot → Option Operands
  | register field =>
      (instructions.register? text).map fun number =>
        operands.setRegister field number.toUInt32
  | integer =>
      (Token.integer? ⟨.number, text⟩).map fun number =>
        { operands with integer := number }
  | label =>
      (symbols.find? text).map fun address => { operands with target := address }
  | comma | openParen | closeParen => some operands

theorem fill_eq_ok_iff {slot : Slot} {token : Token}
    {operands next : Operands} :
    slot.fill instructions symbols token operands = .ok next ↔
      ∃ text, token = ⟨slot.tokenKind, text⟩ ∧
        slot.store? instructions symbols text operands = some next := by
  obtain ⟨kind, text⟩ := token
  by_cases fits : kind = slot.tokenKind
  · subst fits
    cases slot with
    | register field =>
        cases found : instructions.register? text <;>
          simp [fill, store?, found]
    | integer =>
        cases found : Token.integer? ⟨.number, text⟩ <;>
          simp [fill, store?, found, tokenKind]
    | label =>
        cases found : symbols.find? text <;> simp [fill, store?, found]
    | _ => simp [fill, store?]
  · simp [fill, fits]

/-- A list of tokens fills a list of slots, which leads from the first
operands to the last ones. -/
inductive Filled (instructions : InstructionSet) (symbols : SymbolTable) :
    List Slot → List Token → Operands → Operands → Prop
  | nil (operands : Operands) : Filled instructions symbols [] [] operands operands
  | cons {slot : Slot} {slots : List Slot} {token : Token}
      {tokens : List Token} {first next last : Operands}
      (filled : slot.fill instructions symbols token first = .ok next)
      (rest : Filled instructions symbols slots tokens next last) :
      Filled instructions symbols (slot :: slots) (token :: tokens) first last

theorem filled_nil_iff {tokens : List Token} {first last : Operands} :
    Filled instructions symbols [] tokens first last ↔
      tokens = [] ∧ first = last := by
  constructor
  · rintro ⟨⟩
    exact ⟨rfl, rfl⟩
  · rintro ⟨rfl, rfl⟩
    exact .nil _

theorem filled_cons_iff {slot : Slot} {slots : List Slot}
    {tokens : List Token} {first last : Operands} :
    Filled instructions symbols (slot :: slots) tokens first last ↔
      ∃ text rest, tokens = ⟨slot.tokenKind, text⟩ :: rest ∧
        ∃ next, slot.store? instructions symbols text first = some next ∧
          Filled instructions symbols slots rest next last := by
  constructor
  · rintro (_ | ⟨filled, restFilled⟩)
    obtain ⟨text, rfl, stored⟩ := fill_eq_ok_iff.mp filled
    exact ⟨text, _, rfl, _, stored, restFilled⟩
  · rintro ⟨text, rest, rfl, next, stored, restFilled⟩
    exact .cons (fill_eq_ok_iff.mpr ⟨text, rfl, stored⟩) restFilled

theorem filled_cons_cons_iff {slot : Slot} {slots : List Slot}
    {kind : TokenKind} {text : String} {tokens : List Token}
    {first last : Operands} :
    Filled instructions symbols (slot :: slots) (⟨kind, text⟩ :: tokens)
        first last ↔
      kind = slot.tokenKind ∧
        ∃ next, slot.store? instructions symbols text first = some next ∧
          Filled instructions symbols slots tokens next last := by
  simp only [filled_cons_iff, List.cons.injEq, Token.mk.injEq]
  constructor
  · rintro ⟨_, _, ⟨⟨rfl, rfl⟩, rfl⟩, stored⟩
    exact ⟨rfl, stored⟩
  · rintro ⟨rfl, stored⟩
    exact ⟨text, tokens, ⟨⟨rfl, rfl⟩, rfl⟩, stored⟩

end Slot

/-! ## Slots and operand lists -/

/-- Filled slots spell operands, and the category makes of what was stored
what the operand values denote. -/
theorem Category.exists_operands_of_filled {category : Category}
    {tokens : List Token} {last : Operands}
    (filled : Slot.Filled instructions symbols category.slots tokens {} last) :
    ∃ operands values, operands.Spells tokens ∧ category.Takes operands ∧
      operands.traverse? instructions.register?
        (fun text => Token.integer? ⟨.number, text⟩) symbols.find? =
          some values ∧
      ∀ here, category.denote? here values =
        some (category.instruction here last) := by
  rcases category with funct | funct | funct | ⟨funct, role⟩ |
      ⟨opcode, funct⟩ | opcode | opcode | ⟨opcode, selector | _⟩ | opcode |
      opcode <;>
    simp only [slots, Slot.filled_cons_iff, Slot.filled_nil_iff,
      Slot.tokenKind, Slot.store?, Option.map_eq_some_iff,
      Option.some.injEq] at filled
  case threeRegister =>
    obtain ⟨rd, _, rfl, _, ⟨rdNumber, rdFound, rfl⟩, first, _, rfl, _, rfl,
      rs, _, rfl, _, ⟨rsNumber, rsFound, rfl⟩, second, _, rfl, _, rfl,
      rt, _, rfl, _, ⟨rtNumber, rtFound, rfl⟩, rfl, rfl⟩ := filled
    exact ⟨.threeRegister rd rs rt, .threeRegister rdNumber rsNumber rtNumber,
      .threeRegister .., .threeRegister ..,
      by simp [OperandList.traverse?, rdFound, rsFound, rtFound],
      fun here => rfl⟩
  case twoRegister =>
    obtain ⟨rs, _, rfl, _, ⟨rsNumber, rsFound, rfl⟩, first, _, rfl, _, rfl,
      rt, _, rfl, _, ⟨rtNumber, rtFound, rfl⟩, rfl, rfl⟩ := filled
    exact ⟨.twoRegister rs rt, .twoRegister rsNumber rtNumber,
      .twoRegister .., .twoRegister ..,
      by simp [OperandList.traverse?, rsFound, rtFound], fun here => rfl⟩
  case shift =>
    obtain ⟨rd, _, rfl, _, ⟨rdNumber, rdFound, rfl⟩, first, _, rfl, _, rfl,
      rt, _, rfl, _, ⟨rtNumber, rtFound, rfl⟩, second, _, rfl, _, rfl,
      amount, _, rfl, _, ⟨number, found, rfl⟩, rfl, rfl⟩ := filled
    exact ⟨.shift rd rt amount, .shift rdNumber rtNumber number,
      .shift .., .shift ..,
      by simp [OperandList.traverse?, rdFound, rtFound, found],
      fun here => rfl⟩
  case oneRegister =>
    obtain ⟨name, _, rfl, _, ⟨number, found, rfl⟩, rfl, rfl⟩ := filled
    exact ⟨.oneRegister name, .oneRegister number,
      .oneRegister .., .oneRegister ..,
      by simp [OperandList.traverse?, found], fun here => by cases role <;> rfl⟩
  case extended =>
    obtain ⟨rd, _, rfl, _, ⟨rdNumber, rdFound, rfl⟩, first, _, rfl, _, rfl,
      rs, _, rfl, _, ⟨rsNumber, rsFound, rfl⟩, second, _, rfl, _, rfl,
      rt, _, rfl, _, ⟨rtNumber, rtFound, rfl⟩, rfl, rfl⟩ := filled
    exact ⟨.threeRegister rd rs rt, .threeRegister rdNumber rsNumber rtNumber,
      .threeRegister .., .extended ..,
      by simp [OperandList.traverse?, rdFound, rsFound, rtFound],
      fun here => rfl⟩
  case immediate =>
    obtain ⟨rt, _, rfl, _, ⟨rtNumber, rtFound, rfl⟩, first, _, rfl, _, rfl,
      rs, _, rfl, _, ⟨rsNumber, rsFound, rfl⟩, second, _, rfl, _, rfl,
      text, _, rfl, _, ⟨number, found, rfl⟩, rfl, rfl⟩ := filled
    exact ⟨.immediate rt rs text, .immediate rtNumber rsNumber number,
      .immediate .., .immediate ..,
      by simp [OperandList.traverse?, rtFound, rsFound, found],
      fun here => rfl⟩
  case loadUpper =>
    obtain ⟨rt, _, rfl, _, ⟨rtNumber, rtFound, rfl⟩, first, _, rfl, _, rfl,
      text, _, rfl, _, ⟨number, found, rfl⟩, rfl, rfl⟩ := filled
    exact ⟨.loadUpper rt text, .loadUpper rtNumber number,
      .loadUpper .., .loadUpper ..,
      by simp [OperandList.traverse?, rtFound, found], fun here => rfl⟩
  case branch.againstZero =>
    obtain ⟨rs, _, rfl, _, ⟨rsNumber, rsFound, rfl⟩, first, _, rfl, _, rfl,
      name, _, rfl, _, ⟨address, found, rfl⟩, rfl, rfl⟩ := filled
    exact ⟨.branchOnZero rs name, .branchOnZero rsNumber address,
      .branchOnZero .., .branchOnZero ..,
      by simp [OperandList.traverse?, rsFound, found], fun here => rfl⟩
  case branch.betweenRegisters =>
    obtain ⟨rs, _, rfl, _, ⟨rsNumber, rsFound, rfl⟩, first, _, rfl, _, rfl,
      rt, _, rfl, _, ⟨rtNumber, rtFound, rfl⟩, second, _, rfl, _, rfl,
      name, _, rfl, _, ⟨address, found, rfl⟩, rfl, rfl⟩ := filled
    exact ⟨.branchOnPair rs rt name, .branchOnPair rsNumber rtNumber address,
      .branchOnPair .., .branchOnPair ..,
      by simp [OperandList.traverse?, rsFound, rtFound, found],
      fun here => rfl⟩
  case memory =>
    obtain ⟨rt, _, rfl, _, ⟨rtNumber, rtFound, rfl⟩, first, _, rfl, _, rfl,
      offset, _, rfl, _, ⟨number, found, rfl⟩, left, _, rfl, _, rfl,
      base, _, rfl, _, ⟨baseNumber, baseFound, rfl⟩, right, _, rfl, _, rfl,
      rfl, rfl⟩ := filled
    exact ⟨.memory rt offset base, .memory rtNumber number baseNumber,
      .memory .., .memory ..,
      by simp [OperandList.traverse?, rtFound, found, baseFound],
      fun here => rfl⟩
  case jump =>
    obtain ⟨name, _, rfl, _, ⟨address, found, rfl⟩, rfl, rfl⟩ := filled
    exact ⟨.jump name, .jump address, .jump .., .jump ..,
      by simp [OperandList.traverse?, found], fun here => rfl⟩

/-- Operands in the form of a category that are found fill its slots. -/
theorem Category.exists_filled_of_spells {category : Category}
    {tokens : List Token} {operands : OperandList String String String}
    {values : OperandList UInt8 Int UInt32}
    (takes : category.Takes operands) (spells : operands.Spells tokens)
    (found : operands.traverse? instructions.register?
      (fun text => Token.integer? ⟨.number, text⟩) symbols.find? =
        some values) :
    ∃ last, Slot.Filled instructions symbols category.slots tokens {} last ∧
      ∀ here, category.denote? here values =
        some (category.instruction here last) := by
  cases takes <;> cases spells <;>
    simp only [OperandList.traverse?, bind, Option.bind_eq_some_iff, pure,
      Option.some.injEq] at found
  case threeRegister.threeRegister | extended.threeRegister | shift.shift |
      immediate.immediate | branchOnPair.branchOnPair | memory.memory =>
    obtain ⟨_, first, _, second, _, third, rfl⟩ := found
    simp [slots, Slot.filled_cons_cons_iff, Slot.filled_nil_iff, Slot.tokenKind,
      Slot.store?, first, second, third, denote?, instruction,
      Operands.setRegister, branchDistance]
  case twoRegister.twoRegister | loadUpper.loadUpper |
      branchOnZero.branchOnZero =>
    obtain ⟨_, first, _, second, rfl⟩ := found
    simp [slots, Slot.filled_cons_cons_iff, Slot.filled_nil_iff, Slot.tokenKind,
      Slot.store?, first, second, denote?, instruction, Operands.setRegister,
      branchDistance]
  case oneRegister.oneRegister funct role register =>
    obtain ⟨_, first, rfl⟩ := found
    cases role <;>
      simp [slots, Slot.filled_cons_cons_iff, Slot.filled_nil_iff, Slot.tokenKind,
        Slot.store?, first, denote?, instruction, Operands.setRegister,
        RegisterRole.field]
  case jump.jump =>
    obtain ⟨_, first, rfl⟩ := found
    simp [slots, Slot.filled_cons_cons_iff, Slot.filled_nil_iff, Slot.tokenKind,
      Slot.store?, first, denote?, instruction]

end MipsAssembler
