import MipsAssembler.CommandLine.AddressText
import MipsAssembler.CommandLine.Arguments
import MipsAssembler.CommandLine.Files
import MipsAssembler.Program.SettingsJson

/-!
# Running the command line

A run reads its settings, reads and assembles the source file, writes the
symbol table if asked to, and writes or prints the assembly.  The stages are
taken in this order; the first one that fails is reported and ends the run.
-/

namespace MipsAssembler.CommandLine

/-- What is reported when a stage fails. -/
structure Report where
  message : String
  cause? : Option String
  deriving DecidableEq

/-- How a run ends, and what it prints. -/
inductive Outcome
  | done (text : String)
  | failed (report : Report)
  | misused
  deriving DecidableEq

namespace Outcome

def exitCode : Outcome → UInt32
  | done _ => 0
  | failed _ => 1
  | misused => 2

/-- The text on standard output. -/
def output : Outcome → String
  | done text => text
  | failed _ | misused => ""

end Outcome

/-! ## Reports -/

/-- The report that an activity on a file failed. -/
def FileFault.report (activity path : String) (fault : FileFault) : Report :=
  ⟨activity ++ " " ++ path, some fault.message⟩

/-- The report that a source file cannot be assembled; a lexical error has a
position in the file. -/
def assemblyReport (path : String) : AssemblyError → Report
  | .lexical error =>
      ⟨path ++ ":" ++ Radix.decimal.write error.position.line ++ ":" ++
        Radix.decimal.write error.position.column ++ ": " ++
        error.fault.message, none⟩
  | .syntactic error => ⟨path ++ ": " ++ error.message, none⟩

/-! ## Stages -/

/-- The base address given on the command line, or else the configured one. -/
def chosenBase (configured : UInt32) : Option String → Except Report UInt32
  | none => .ok configured
  | some text =>
      (readAddress text).mapError fun fault =>
        ⟨"bad --base " ++ text, some fault.message⟩

section Stages

variable {m : Type → Type} [Monad m]

/-- A stage that uses no files. -/
def Report.ofExcept {α : Type} (result : Except Report α) : ExceptT Report m α :=
  ExceptT.mk (pure result)

variable [FileAccess m]

/-- Read a text file, or report that the activity failed. -/
def readOrReport (activity path : String) : ExceptT Report m String :=
  ExceptT.mk do
    return (← readText path).mapError (FileFault.report activity path)

/-- Write a text file, or report that it failed. -/
def writeOrReport (path text : String) : ExceptT Report m Unit :=
  ExceptT.mk do
    return (← writeText path text).mapError (FileFault.report "writing" path)

/-- The settings of the configuration file, or the default settings. -/
def configuredSettings : Option String → ExceptT Report m Settings
  | none => return {}
  | some path => do
      let text ← readOrReport "reading config" path
      match Settings.read? text with
      | some settings => return settings
      | none => throw ⟨"parsing config " ++ path, none⟩

/-- The settings of a run: the command line overrides the configuration. -/
def effectiveSettings (options : Options) : ExceptT Report m Settings := do
  let configured ← configuredSettings options.config?
  let baseAddress ←
    Report.ofExcept (chosenBase configured.baseAddress options.base?)
  let entryLabel := options.entry?.getD configured.entryLabel
  let labelScope :=
    if options.textOnly then LabelScope.afterText else configured.labelScope
  return { baseAddress, entryLabel, labelScope }

/-- Write the symbol table to the file asked for, if any. -/
def exportSymbols (symbols : SymbolTable) :
    Option String → ExceptT Report m Unit
  | none => return ()
  | some path => writeOrReport path symbols.toJson.pretty

/-- Write a text to the file asked for; without one it is to be printed, with
a line feed at its end. -/
def deliver (text : String) : Option String → ExceptT Report m String
  | none => return text ++ "\n"
  | some path => do
      writeOrReport path text
      return ""

/-- All stages of a run; the result is what is to be printed. -/
def runStages (options : Options) : ExceptT Report m String := do
  let settings ← effectiveSettings options
  let source ← readOrReport "reading" options.source
  let assembly ← Report.ofExcept
    ((assemble settings source).mapError (assemblyReport options.source))
  exportSymbols assembly.symbols options.symbolsOut?
  deliver (assembly.render options.format) options.output?

def versionText : String :=
  "mips-asm-cli 0.1.0\n"

def helpText : String :=
  joinLines
    ["Assemble MIPS-32 source into binary words",
      "",
      "Usage: mips-asm [OPTIONS] <ASMFILE>",
      "",
      "Arguments:",
      "  <ASMFILE>  Input assembly file",
      "",
      "Options:",
      "  -o, --output <FILE>       Write output to file instead of stdout",
      "      --format <FORMAT>     Output format [default: binary] " ++
        "[possible values: binary, hex, listing, json]",
      "      --config <FILE>       JSON file with settings; " ++
        "options below override it",
      "      --base <BASE>         Address of the first instruction " ++
        "(hex or dec)",
      "      --entry <ENTRY>       Label whose body is encoded",
      "      --text-only           Only bind labels that appear after the " ++
        "first .text directive",
      "      --symbols-out <FILE>  Export the symbol table as JSON",
      "  -h, --help                Print help",
      "  -V, --version             Print version",
      ""]

/-- Do what the arguments ask for. -/
def run (arguments : List String) : m Outcome := do
  match Request.ofArguments arguments with
  | .misuse => return .misused
  | .version => return .done versionText
  | .help => return .done helpText
  | .run options =>
      match ← (runStages options).run with
      | .ok text => return .done text
      | .error report => return .failed report

end Stages

end MipsAssembler.CommandLine
