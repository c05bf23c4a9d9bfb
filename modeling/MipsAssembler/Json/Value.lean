import MipsAssembler.Numeral.Decimal

/-!
# JSON values

Settings are read from JSON, and assemblies and symbol tables are written as
JSON.  A value keeps what its text says: numbers keep their spelling, and an
object keeps all its members in order, repeated names included.
-/

namespace MipsAssembler

/-- A JSON value.  The text of a string is absent if the string escapes half
of a surrogate pair, which denotes no character. -/
inductive Json
  | null
  | bool (value : Bool)
  | number (spelling : String)
  | string (text? : Option String)
  | array (elements : List Json)
  | object (members : List (Option String × Json))

namespace Json

/-- The string value of a text. -/
def ofText (text : String) : Json :=
  string (some text)

def ofInt (value : Int) : Json :=
  number (Decimal.write value)

def ofWord (value : UInt32) : Json :=
  number (Radix.decimal.write value.toNat)

/-- The object of named members. -/
def record (members : List (String × Json)) : Json :=
  object (members.map fun member => (some member.1, member.2))

end Json

end MipsAssembler
