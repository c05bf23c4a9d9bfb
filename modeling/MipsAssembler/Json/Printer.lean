import MipsAssembler.Json.Value

/-!
# Writing JSON

There is a compact form without any white space, and an indented form with one
member or element a line, two spaces to a level.  In strings only what JSON
forbids to stand for itself is escaped.
-/

namespace MipsAssembler.Json

/-! ## Strings -/

/-- How a character is written in a string. -/
def escape (character : Char) : List Char :=
  if character = '"' then
    ['\\', '"']
  else if character = '\\' then
    ['\\', '\\']
  else if character = '\x08' then
    ['\\', 'b']
  else if character = '\x0c' then
    ['\\', 'f']
  else if character = '\n' then
    ['\\', 'n']
  else if character = '\r' then
    ['\\', 'r']
  else if character = '\t' then
    ['\\', 't']
  else if character.toNat < 0x20 then
    ['\\', 'u'] ++ Radix.hexadecimal.paddedDigits 4 character.toNat
  else
    [character]

/-- A text as a JSON string. -/
def quote (text : String) : String :=
  String.ofList ('"' :: text.toList.flatMap escape ++ ['"'])

/-- A string value; one without a text is written as half a surrogate pair. -/
def writeString : Option String → String
  | some text => quote text
  | none => "\"\\ud800\""

/-! ## Compact form -/

mutual

/-- The value without any white space. -/
def compact : Json → String
  | null => "null"
  | bool true => "true"
  | bool false => "false"
  | number spelling => spelling
  | string text? => writeString text?
  | array elements => "[" ++ ",".intercalate (compactElements elements) ++ "]"
  | object members =>
      "\x7b" ++ ",".intercalate (compactMembers members) ++ "\x7d"

def compactElements : List Json → List String
  | [] => []
  | element :: rest => element.compact :: compactElements rest

def compactMembers : List (Option String × Json) → List String
  | [] => []
  | (name?, value) :: rest =>
      (writeString name? ++ ":" ++ value.compact) :: compactMembers rest

end

/-! ## Indented form -/

/-- The start of a line at a level of nesting. -/
def newLine (level : Nat) : String :=
  String.ofList ('\n' :: List.replicate (2 * level) ' ')

/-- Lay the items of an array or object out on lines of their own. -/
def layOut (level : Nat) (opening closing : String) : List String → String
  | [] => opening ++ closing
  | items =>
      opening ++ newLine (level + 1) ++
        ("," ++ newLine (level + 1)).intercalate items ++
        newLine level ++ closing

mutual

/-- The value with its inner lines indented for a level of nesting. -/
def indented (level : Nat) : Json → String
  | null => "null"
  | bool true => "true"
  | bool false => "false"
  | number spelling => spelling
  | string text? => writeString text?
  | array elements => layOut level "[" "]" (indentedElements (level + 1) elements)
  | object members =>
      layOut level "\x7b" "\x7d" (indentedMembers (level + 1) members)

def indentedElements (level : Nat) : List Json → List String
  | [] => []
  | element :: rest => element.indented level :: indentedElements level rest

def indentedMembers (level : Nat) : List (Option String × Json) → List String
  | [] => []
  | (name?, value) :: rest =>
      (writeString name? ++ ": " ++ value.indented level) ::
        indentedMembers level rest

end

/-- The value in indented form, as a text of its own. -/
def pretty (value : Json) : String :=
  value.indented 0

end MipsAssembler.Json
