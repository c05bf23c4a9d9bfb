import MipsAssembler.CommandLine.Files

/-!
# Paths

A path is a sequence of names, which are followed one after another from the
root or from the working directory.  The sizes of a path and of each name in
it are limited; they are counted in bytes of UTF-8.
-/

namespace MipsAssembler.CommandLine

structure Path where
  isAbsolute : Bool
  /-- The names between the slashes, none of them empty. -/
  names : List String
  /-- A slash at the end asks for a directory. -/
  endsWithSlash : Bool
  deriving DecidableEq

namespace Path

/-- The number of bytes that no path reaches. -/
def sizeBound : Nat :=
  4096

/-- The number of bytes that no name exceeds. -/
def maximumNameSize : Nat :=
  255

/-- Take the text of a path apart at its slashes. -/
def ofCharacters (characters : List Char) : Path where
  isAbsolute := characters.head? = some '/'
  names := ((characters.splitOn '/').filter (· ≠ [])).map String.ofList
  endsWithSlash := characters.getLast? = some '/'

/-- The path that a text denotes.  The empty text leads to nothing. -/
def ofText (text : String) : Except FileFault Path :=
  if text = "" then
    .error .missing
  else if text.utf8ByteSize < sizeBound then
    .ok (ofCharacters text.toList)
  else
    .error .nameTooLong

end Path

end MipsAssembler.CommandLine
