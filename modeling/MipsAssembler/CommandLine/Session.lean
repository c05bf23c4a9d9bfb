import MipsAssembler.CommandLine.FileSystem
import MipsAssembler.CommandLine.Run

/-!
# Sessions

A session is a run of the command line in a file system held in memory.  It
ends with the text of the run on standard output, after whatever the run has
written there as to a file.
-/

namespace MipsAssembler.CommandLine

/-- Run the command line in a file system; how the run ends, and the file system
after it. -/
def session (system : FileSystem) (arguments : List String) :
    Outcome × FileSystem :=
  let action : StateM FileSystem Outcome := run arguments
  let (outcome, after) := action.run system
  (outcome, after.print outcome.output.toUTF8)

end MipsAssembler.CommandLine
