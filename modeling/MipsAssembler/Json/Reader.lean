import MipsAssembler.Json.Lexeme

/-!
# Reading JSON

The lexemes of a text are taken one by one.  The arrays and objects that have
begun are kept on a stack, the innermost one first; the state says what has to
come next.  A text holds exactly one value.
-/

namespace MipsAssembler.Json

/-- An array or object that has begun.  The finished parts are kept in
reverse; an object also has the name whose value comes next. -/
inductive Frame
  | array (elements : List Json)
  | object (members : List (Option String × Json)) (name? : Option String)

/-- What has to come next. -/
inductive ReadState
  | value (frames : List Frame)
  /-- An element, or the end of an empty array. -/
  | firstElement (frames : List Frame)
  /-- A member name, or the end of an empty object. -/
  | firstName (frames : List Frame)
  | name (members : List (Option String × Json)) (frames : List Frame)
  | colon (members : List (Option String × Json)) (name? : Option String)
      (frames : List Frame)
  /-- A value is complete; its frame has to go on or end. -/
  | after (result : Json) (frames : List Frame)

namespace ReadState

/-- Take the first lexeme of a value. -/
def takeValue? (frames : List Frame) : Lexeme → Option ReadState
  | .null => some (.after .null frames)
  | .bool flag => some (.after (.bool flag) frames)
  | .number spelling => some (.after (.number spelling) frames)
  | .string text? => some (.after (.string text?) frames)
  | .openBracket => some (.firstElement frames)
  | .openBrace => some (.firstName frames)
  | _ => none

/-- Take one lexeme. -/
def step? : ReadState → Lexeme → Option ReadState
  | value frames, lexeme => takeValue? frames lexeme
  | firstElement frames, .closeBracket => some (.after (.array []) frames)
  | firstElement frames, lexeme => takeValue? (.array [] :: frames) lexeme
  | firstName frames, .closeBrace => some (.after (.object []) frames)
  | firstName frames, .string text? => some (.colon [] text? frames)
  | name members frames, .string text? => some (.colon members text? frames)
  | colon members name? frames, .colon =>
      some (.value (.object members name? :: frames))
  | after element (.array elements :: frames), .comma =>
      some (.value (.array (element :: elements) :: frames))
  | after element (.array elements :: frames), .closeBracket =>
      some (.after (.array (element :: elements).reverse) frames)
  | after member (.object members name? :: frames), .comma =>
      some (.name ((name?, member) :: members) frames)
  | after member (.object members name? :: frames), .closeBrace =>
      some (.after (.object ((name?, member) :: members).reverse) frames)
  | _, _ => none

/-- Take all lexemes; in the end one value has to be complete. -/
def run? : ReadState → List Lexeme → Option Json
  | after result [], [] => some result
  | _, [] => none
  | state, lexeme :: rest =>
      match state.step? lexeme with
      | some next => run? next rest
      | none => none

end ReadState

/-- The value of a JSON text. -/
def read? (text : String) : Option Json :=
  match lexemes? text.toList [] with
  | some lexemes => ReadState.run? (.value []) lexemes
  | none => none

end MipsAssembler.Json
