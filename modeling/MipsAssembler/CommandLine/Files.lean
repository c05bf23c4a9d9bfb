/-!
# Files

The command line reads and writes files by path.  It does so through two
operations, which a program performs on the file system of its machine and a
proof on one held in memory.
-/

namespace MipsAssembler.CommandLine

/-- Why a file cannot be read or written. -/
inductive FileFault
  | missing
  | notDirectory
  | isDirectory
  /-- A name in the path, or the path as a whole, exceeds its limit. -/
  | nameTooLong
  | noSpace
  /-- The bytes of the file are not a UTF-8 text. -/
  | notText
  | other (description : String)
  deriving DecidableEq

def FileFault.message : FileFault → String
  | missing => "No such file or directory (os error 2)"
  | notDirectory => "Not a directory (os error 20)"
  | isDirectory => "Is a directory (os error 21)"
  | nameTooLong => "File name too long (os error 36)"
  | noSpace => "No space left on device (os error 28)"
  | notText => "stream did not contain valid UTF-8"
  | other description => description

/-- The file operations of the command line. -/
class FileAccess (m : Type → Type) where
  read : String → m (Except FileFault ByteArray)
  /-- A write that fails may leave a part of the bytes in the file. -/
  write : String → ByteArray → m (Except FileFault Unit)

/-- Read a file that holds a text. -/
def readText {m : Type → Type} [Monad m] [FileAccess m] (path : String) :
    m (Except FileFault String) := do
  match ← FileAccess.read path with
  | .error fault => return .error fault
  | .ok bytes =>
      match String.fromUTF8? bytes with
      | some text => return .ok text
      | none => return .error .notText

/-- Write a text to a file, in place of what it held. -/
def writeText {m : Type → Type} [FileAccess m] (path text : String) :
    m (Except FileFault Unit) :=
  FileAccess.write path text.toUTF8

end MipsAssembler.CommandLine
