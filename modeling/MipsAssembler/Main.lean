import MipsAssembler.CommandLine.Run

/-!
# The program

The command line of the assembler, run on the file system.  A report goes to
standard error, and a run that was misused says so there.  An assembly that
standard output does not take is a failure of its own, with an exit code that no
outcome has.
-/

namespace MipsAssembler.CommandLine

/-- The description of an error of the file system, with its number. -/
def describeError (details : String) (number : UInt32) : String :=
  details ++ " (os error " ++ Radix.decimal.write number.toNat ++ ")"

/-- The fault that an error of the file system stands for. -/
def FileFault.ofError : IO.Error → FileFault
  | .noFileOrDirectory .. => .missing
  | .inappropriateType _ 21 _ => .isDirectory
  | .inappropriateType .. => .notDirectory
  | .invalidArgument _ 36 _ => .nameTooLong
  | .resourceExhausted _ 28 _ => .noSpace
  | .permissionDenied _ number details => .other (describeError details number)
  | .noSuchThing _ number details => .other (describeError details number)
  | error => .other (toString error)

instance : FileAccess IO where
  read path := do
    try
      return .ok (← IO.FS.withFile path .read fun handle => handle.readBinToEnd)
    catch error =>
      return .error (.ofError error)
  write path content := do
    try
      IO.FS.withFile path .write fun handle => do
        handle.write content
        handle.flush
      return .ok ()
    catch error =>
      return .error (.ofError error)

/-- The lines of a report on standard error. -/
def Report.text (report : Report) : String :=
  "Error: " ++ report.message ++
    match report.cause? with
    | some cause => "\n\nCaused by:\n    " ++ cause
    | none => ""

/-- Print a text; the error if standard output does not take it. -/
def tryPrint (text : String) : IO (Option IO.Error) := do
  try
    IO.print text
    (← IO.getStdout).flush
    return none
  catch error =>
    return some error

end MipsAssembler.CommandLine

open MipsAssembler.CommandLine in
def main (arguments : List String) : IO UInt32 := do
  let outcome : Outcome ← run arguments
  match ← tryPrint outcome.output with
  | some error =>
      match Request.ofArguments arguments with
      | .run _ =>
          IO.eprintln
            ("failed printing to stdout: " ++ (FileFault.ofError error).message)
          return 101
      -- A text about the program itself is left out without a word.
      | .version | .help | .misuse => return outcome.exitCode
  | none =>
      match outcome with
      | .done _ => pure ()
      | .failed report => IO.eprintln report.text
      | .misused =>
          IO.eprintln "error: wrong usage\n\nFor more information, try '--help'."
      return outcome.exitCode
