import MipsAssembler.Json.Reader
import MipsAssembler.Program.Settings

/-!
# Settings as JSON

Settings are an object whose known members are optional and occur at most
once; other members are ignored.  They may also be given as a list of the
values of the known members, in order, from which the last ones may be left
out.
-/

namespace MipsAssembler

namespace Json

/-- The address that a value denotes: a plain number that fits a word. -/
def toWord? : Json → Option UInt32
  | number spelling =>
      ((Radix.decimal.read? spelling.toList).filter (· < UInt32.size)).map
        UInt32.ofNat
  | _ => none

/-- The text that a string denotes. -/
def toText? : Json → Option String
  | string text? => text?
  | _ => none

end Json

namespace LabelScope

def ofName? : String → Option LabelScope
  | "whole" => some everywhere
  | "after-text" => some afterText
  | _ => none

/-- A scope is given by its name, or by an object with a null member of that
name. -/
def ofJson? : Json → Option LabelScope
  | .string (some name) => ofName? name
  | .object [(some name, .null)] => ofName? name
  | _ => none

end LabelScope

namespace Settings

/-- The value of an optional object member that occurs at most once: its
default if it is absent. -/
def member? {α : Type} (members : List (Option String × Json)) (name : String)
    (default : α) (decode : Json → Option α) : Option α :=
  match members.filter fun member => member.1 = some name with
  | [] => some default
  | [(_, value)] => decode value
  | _ => none

/-- The value of an optional list element: its default if the list is too
short. -/
def element? {α : Type} (elements : List Json) (index : Nat) (default : α)
    (decode : Json → Option α) : Option α :=
  match elements[index]? with
  | none => some default
  | some value => decode value

/-- The settings that a JSON value denotes. -/
def ofJson? : Json → Option Settings
  | .object members => do
      guard (members.all fun member => member.1.isSome)
      let defaults : Settings := {}
      let baseAddress ←
        member? members "base_address" defaults.baseAddress Json.toWord?
      let entryLabel ←
        member? members "entry_label" defaults.entryLabel Json.toText?
      let labelScope ←
        member? members "label_scan" defaults.labelScope LabelScope.ofJson?
      return { baseAddress, entryLabel, labelScope }
  | .array elements => do
      guard (elements.length ≤ 3)
      let defaults : Settings := {}
      let baseAddress ←
        element? elements 0 defaults.baseAddress Json.toWord?
      let entryLabel ← element? elements 1 defaults.entryLabel Json.toText?
      let labelScope ←
        element? elements 2 defaults.labelScope LabelScope.ofJson?
      return { baseAddress, entryLabel, labelScope }
  | _ => none

/-- The settings that a JSON text denotes. -/
def read? (text : String) : Option Settings :=
  (Json.read? text).bind ofJson?

end Settings

end MipsAssembler
