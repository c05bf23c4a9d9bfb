import MipsAssembler.Program.Rendering

/-!
# Command line arguments

Arguments are taken strictly from left to right.  The first one that cannot
be accepted makes the whole command line a misuse, and the first request for
the version or for help is granted, whatever follows.  An option is given at
most once, by its long name or, for the output file, by its letter.
-/

namespace MipsAssembler.CommandLine

/-- The options that take a value. -/
inductive ValueOption
  | output
  | format
  | config
  | base
  | entry
  | symbolsOut
  deriving DecidableEq

/-- The options that stand alone. -/
inductive Flag
  | textOnly
  | version
  | help
  deriving DecidableEq

def ValueOption.ofName? : String → Option ValueOption
  | "output" => some output
  | "format" => some format
  | "config" => some config
  | "base" => some base
  | "entry" => some entry
  | "symbols-out" => some symbolsOut
  | _ => none

def Flag.ofName? : String → Option Flag
  | "text-only" => some textOnly
  | "version" => some version
  | "help" => some help
  | _ => none

/-- What a command line asks for. -/
inductive Request (α : Type)
  | run (options : α)
  | version
  | help
  | misuse
  deriving DecidableEq

/-- The options of an assembly run. -/
structure Options where
  source : String
  output? : Option String
  format : OutputFormat
  config? : Option String
  base? : Option String
  entry? : Option String
  textOnly : Bool
  symbolsOut? : Option String
  deriving DecidableEq

/-- The options that were given so far. -/
structure Given where
  source? : Option String := none
  output? : Option String := none
  format? : Option OutputFormat := none
  config? : Option String := none
  base? : Option String := none
  entry? : Option String := none
  textOnly : Bool := false
  symbolsOut? : Option String := none
  deriving DecidableEq

namespace Given

/-- Set a part that is not yet set. -/
def setOnce {α : Type} (current : Option α) (value : α)
    (update : Option α → Given) : Request Given :=
  if current.isSome then .misuse else .run (update (some value))

/-- Set a file path that is not yet set; no file has an empty path. -/
def setPath (current : Option String) (path : String)
    (update : Option String → Given) : Request Given :=
  if path = "" then .misuse else setOnce current path update

/-- Take the value of an option. -/
def setValue (given : Given) (option : ValueOption) (value : String) :
    Request Given :=
  match option with
  | .output => setPath given.output? value fun path =>
      { given with output? := path }
  | .format =>
      match OutputFormat.ofName? value with
      | some format => setOnce given.format? format fun format =>
          { given with format? := format }
      | none => .misuse
  | .config => setPath given.config? value fun path =>
      { given with config? := path }
  | .base => setOnce given.base? value fun base =>
      { given with base? := base }
  | .entry => setOnce given.entry? value fun entry =>
      { given with entry? := entry }
  | .symbolsOut => setPath given.symbolsOut? value fun path =>
      { given with symbolsOut? := path }

/-- Take an argument that is not an option: the source file. -/
def setSource (given : Given) (path : String) : Request Given :=
  setPath given.source? path fun source => { given with source? := source }

/-- Take an option that stands alone. -/
def setFlag (given : Given) : Flag → Request Given
  | .version => .version
  | .help => .help
  | .textOnly =>
      if given.textOnly then .misuse else .run { given with textOnly := true }

/-- The options of a run, once all arguments are taken. -/
def options? (given : Given) : Option Options :=
  given.source?.map fun source =>
    { source, output? := given.output?,
      format := given.format?.getD .binary, config? := given.config?,
      base? := given.base?, entry? := given.entry?,
      textOnly := given.textOnly, symbolsOut? := given.symbolsOut? }

end Given

/-- How the next argument is understood. -/
inductive Mode
  | any
  /-- It has to be the value of an option. -/
  | valueOf (option : ValueOption)
  /-- It is no option, whatever it looks like. -/
  | sourceOnly
  deriving DecidableEq

/-- The state between two arguments. -/
structure ArgumentState where
  given : Given
  mode : Mode

namespace ArgumentState

/-- Go on in a mode, unless the command line is decided. -/
def continueIn (mode : Mode) : Request Given → Request ArgumentState
  | .run given => .run ⟨given, mode⟩
  | .version => .version
  | .help => .help
  | .misuse => .misuse

/-- Take the letters of a short option. -/
def takeLetters (given : Given) : List Char → Request ArgumentState
  | ['o'] => .run ⟨given, .valueOf .output⟩
  | 'o' :: '=' :: value =>
      continueIn .any (given.setValue .output (String.ofList value))
  | 'o' :: value =>
      continueIn .any (given.setValue .output (String.ofList value))
  | 'V' :: _ => .version
  | 'h' :: _ => .help
  | _ => .misuse

/-- Take a long option, given without its dashes. -/
def takeLong (given : Given) (text : List Char) : Request ArgumentState :=
  let name := String.ofList (text.takeWhile (· ≠ '='))
  match text.dropWhile (· ≠ '=') with
  | [] =>
      match ValueOption.ofName? name, Flag.ofName? name with
      | some option, _ => .run ⟨given, .valueOf option⟩
      | none, some flag => continueIn .any (given.setFlag flag)
      | none, none => .misuse
  | _ :: value =>
      match ValueOption.ofName? name with
      | some option =>
          continueIn .any (given.setValue option (String.ofList value))
      | none => .misuse

/-- Take one argument.  A separate value does not begin with a dash, except
that it may be a single dash. -/
def take (state : ArgumentState) (argument : String) : Request ArgumentState :=
  match state.mode, argument.toList with
  | .sourceOnly, _ => continueIn .sourceOnly (state.given.setSource argument)
  | .valueOf _, '-' :: _ :: _ => .misuse
  | .valueOf option, _ =>
      continueIn .any (state.given.setValue option argument)
  | .any, ['-', '-'] => .run { state with mode := .sourceOnly }
  | .any, '-' :: '-' :: text => takeLong state.given text
  | .any, '-' :: letter :: rest => takeLetters state.given (letter :: rest)
  | .any, _ => continueIn .any (state.given.setSource argument)

/-- Take all arguments. -/
def takeAll : ArgumentState → List String → Request Options
  | state, [] =>
      match state.mode, state.given.options? with
      | .valueOf _, _ => .misuse
      | _, some options => .run options
      | _, none => .misuse
  | state, argument :: rest =>
      match state.take argument with
      | .run next => takeAll next rest
      | .version => .version
      | .help => .help
      | .misuse => .misuse

end ArgumentState

/-- What a list of arguments asks for. -/
def Request.ofArguments (arguments : List String) : Request Options :=
  ArgumentState.takeAll ⟨{}, .any⟩ arguments

end MipsAssembler.CommandLine
