import Mathlib.Data.Option.Basic
import MipsAssembler.Program.SettingsJson

/-!
# Layers of settings

Settings are given in layers, each of which may leave some of them open.  A
layer comes before those under it, and the defaults are under all of them.  The
members of a configuration are such a layer.
-/

namespace MipsAssembler

/-- Some of the settings of a run. -/
structure SettingsLayer where
  baseAddress? : Option UInt32 := none
  entryLabel? : Option String := none
  labelScope? : Option LabelScope := none
  deriving DecidableEq

namespace SettingsLayer

/-- A layer on top of another one, which gives what the first leaves open. -/
def above (first second : SettingsLayer) : SettingsLayer where
  baseAddress? := first.baseAddress?.or second.baseAddress?
  entryLabel? := first.entryLabel?.or second.entryLabel?
  labelScope? := first.labelScope?.or second.labelScope?

/-- The layer on top of the defaults. -/
def complete (layer : SettingsLayer) : Settings :=
  let defaults : Settings := {}
  { baseAddress := layer.baseAddress?.getD defaults.baseAddress
    entryLabel := layer.entryLabel?.getD defaults.entryLabel
    labelScope := layer.labelScope?.getD defaults.labelScope }

theorem complete_above (first second : SettingsLayer) :
    (first.above second).complete =
      { baseAddress := first.baseAddress?.getD second.complete.baseAddress
        entryLabel := first.entryLabel?.getD second.complete.entryLabel
        labelScope := first.labelScope?.getD second.complete.labelScope } := by
  simp only [above, complete, Option.getD_or]

end SettingsLayer

/-! ## Layers in JSON -/

section Parts

variable {α : Type} {decode : Json → Option α} {default value : α}

/-- An object has no member of a name, or it has one, which has a meaning. -/
inductive Json.Member (members : List (Option String × Json)) (name : String)
    (decode : Json → Option α) : Option α → Prop
  | absent (absent : ∀ member ∈ members, member.1 ≠ some name) :
      Member members name decode none
  | present {json : Json} {meaning : α}
      (once : members.filter (fun member => member.1 = some name) =
        [(some name, json)])
      (decoded : decode json = some meaning) :
      Member members name decode (some meaning)

/-- A list ends before an index, or its element there has a meaning. -/
inductive Json.Element (elements : List Json) (index : Nat)
    (decode : Json → Option α) : Option α → Prop
  | absent (short : elements.length ≤ index) :
      Element elements index decode none
  | present {json : Json} {meaning : α}
      (element : elements[index]? = some json)
      (decoded : decode json = some meaning) :
      Element elements index decode (some meaning)

theorem Settings.member?_eq_some_iff {members : List (Option String × Json)}
    {name : String} :
    Settings.member? members name default decode = some value ↔
      ∃ given?, Json.Member members name decode given? ∧
        given?.getD default = value := by
  constructor
  · intro read
    unfold member? at read
    split at read
    · next nothing =>
      cases read
      refine ⟨none, .absent fun member inside named => ?_, rfl⟩
      exact absurd (decide_eq_true named)
        (List.filter_eq_nil_iff.mp nothing member inside)
    · next key json once =>
      have inside : (key, json) ∈ members.filter fun member =>
          member.1 = some name := by simp [once]
      obtain rfl : key = some name :=
        of_decide_eq_true (List.mem_filter.mp inside).2
      exact ⟨some value, .present once read, rfl⟩
    · cases read
  · rintro ⟨given?, given, rfl⟩
    unfold member?
    cases given with
    | absent absent =>
        have nothing : members.filter (fun member => member.1 = some name) =
            [] :=
          List.filter_eq_nil_iff.mpr fun member inside named =>
            absent member inside (of_decide_eq_true named)
        rw [nothing]
        rfl
    | present once decoded =>
        rw [once]
        exact decoded

theorem Settings.element?_eq_some_iff {elements : List Json} {index : Nat} :
    Settings.element? elements index default decode = some value ↔
      ∃ given?, Json.Element elements index decode given? ∧
        given?.getD default = value := by
  constructor
  · intro read
    unfold element? at read
    split at read
    · next nothing =>
      cases read
      exact ⟨none, .absent (List.getElem?_eq_none_iff.mp nothing), rfl⟩
    · next json element => exact ⟨some value, .present element read, rfl⟩
  · rintro ⟨given?, given, rfl⟩
    unfold element?
    cases given with
    | absent short =>
        rw [List.getElem?_eq_none_iff.mpr short]
        rfl
    | present element decoded =>
        rw [element]
        exact decoded

end Parts

/-- What a JSON value says about settings: the members of an object that are
known by name, or the elements of a list by their order. -/
inductive SettingsLayer.IsReadFrom : Json → SettingsLayer → Prop
  | object {members : List (Option String × Json)} {layer : SettingsLayer}
      (named : ∀ member ∈ members, member.1.isSome)
      (base : Json.Member members "base_address" Json.toWord?
        layer.baseAddress?)
      (entry : Json.Member members "entry_label" Json.toText?
        layer.entryLabel?)
      (scope : Json.Member members "label_scan" LabelScope.ofJson?
        layer.labelScope?) :
      IsReadFrom (.object members) layer
  | array {elements : List Json} {layer : SettingsLayer}
      (short : elements.length ≤ 3)
      (base : Json.Element elements 0 Json.toWord? layer.baseAddress?)
      (entry : Json.Element elements 1 Json.toText? layer.entryLabel?)
      (scope : Json.Element elements 2 LabelScope.ofJson? layer.labelScope?) :
      IsReadFrom (.array elements) layer

/-- Settings are read from a JSON value by completing the layer that it is. -/
theorem Settings.ofJson?_eq_some_iff {json : Json} {settings : Settings} :
    Settings.ofJson? json = some settings ↔
      ∃ layer : SettingsLayer, layer.IsReadFrom json ∧
        layer.complete = settings := by
  constructor
  · intro read
    cases json with
    | object members =>
        simp only [ofJson?, Option.bind_eq_bind, Option.bind_eq_some_iff,
          Option.guard_eq_some', member?_eq_some_iff] at read
        obtain ⟨-, named, -, ⟨address?, base, rfl⟩, -, ⟨label?, entry, rfl⟩, -,
          ⟨scope?, scope, rfl⟩, ⟨⟩⟩ := read
        exact ⟨⟨address?, label?, scope?⟩,
          .object (List.all_eq_true.mp named) base entry scope, rfl⟩
    | array elements =>
        simp only [ofJson?, Option.bind_eq_bind, Option.bind_eq_some_iff,
          Option.guard_eq_some', element?_eq_some_iff] at read
        obtain ⟨-, short, -, ⟨address?, base, rfl⟩, -, ⟨label?, entry, rfl⟩, -,
          ⟨scope?, scope, rfl⟩, ⟨⟩⟩ := read
        exact ⟨⟨address?, label?, scope?⟩, .array short base entry scope, rfl⟩
    | _ => cases read
  · rintro ⟨layer, readFrom, rfl⟩
    cases readFrom with
    | object named base entry scope =>
        simp only [ofJson?, Option.bind_eq_bind, Option.bind_eq_some_iff,
          Option.guard_eq_some', member?_eq_some_iff]
        exact ⟨(), List.all_eq_true.mpr named, _, ⟨_, base, rfl⟩, _,
          ⟨_, entry, rfl⟩, _, ⟨_, scope, rfl⟩, rfl⟩
    | array short base entry scope =>
        simp only [ofJson?, Option.bind_eq_bind, Option.bind_eq_some_iff,
          Option.guard_eq_some', element?_eq_some_iff]
        exact ⟨(), short, _, ⟨_, base, rfl⟩, _, ⟨_, entry, rfl⟩, _,
          ⟨_, scope, rfl⟩, rfl⟩

end MipsAssembler
