import MipsAssembler.Proofs.CommandLine.Destination
import MipsAssembler.Proofs.CommandLine.StagedRun

/-!
# What a run changes

A run that ends well has changed at most the files that its two paths lead to,
and what it has put on standard output is what these paths lead there and what
it prints.  A run that fails has changed nothing, unless it fails in one of its
two writes: what this write leaves behind is at most a part of its text, in the
file that its path leads to, and a write before it has happened in full.
-/

namespace MipsAssembler.CommandLine

/-! ## Writing to the path of an option -/

/-- The names of the file that the path of an option leads to. -/
def FileSystem.optionFile? (system : FileSystem) (path? : Option String) :
    Option (List String) :=
  path?.bind system.writtenFile?

/-- What a text written to the path of an option adds to standard output. -/
def FileSystem.optionEchoed (system : FileSystem) (path? : Option String)
    (text : String) : ByteArray :=
  path?.elim .empty fun path => system.echoed path text.toUTF8

section Stores

variable {system after : FileSystem} {text : String} {path? : Option String}

theorem Stores.content? (stores : Stores system text path? after)
    (names : List String) :
    after.content? names =
      if system.optionFile? path? = some names then some text.toUTF8
      else system.content? names := by
  cases stores with
  | nowhere => rw [if_neg nofun]
  | file written => exact FileSystem.content?_of_write written names

theorem Stores.printed (stores : Stores system text path? after) :
    after.printed = system.printed ++ system.optionEchoed path? text := by
  cases stores with
  | nowhere => exact ByteArray.append_empty.symm
  | file written => exact FileSystem.printed_of_write written

theorem Stores.optionFile? (stores : Stores system text path? after)
    (other? : Option String) :
    after.optionFile? other? = system.optionFile? other? := by
  cases stores with
  | nowhere => rfl
  | file written =>
      cases other? with
      | none => rfl
      | some other => exact FileSystem.writtenFile?_of_write written other

theorem Stores.optionEchoed (stores : Stores system text path? after)
    (other? : Option String) (otherText : String) :
    after.optionEchoed other? otherText =
      system.optionEchoed other? otherText := by
  cases stores with
  | nowhere => rfl
  | file written =>
      cases other? with
      | none => rfl
      | some other => exact FileSystem.echoed_of_write written other _

end Stores

/-! ## Runs that end well -/

/-- What a run leaves behind that has published an assembly.  A file that both
paths lead to holds the text of the assembly. -/
structure Published (system : FileSystem) (options : Options)
    (assembly : Assembly) (outcome : Outcome) (after : FileSystem) : Prop where
  outcome_eq : outcome =
    .done (printedText (assembly.render options.format) options.output?)
  content?_eq : ∀ names, after.content? names =
    if system.optionFile? options.output? = some names then
      some (assembly.render options.format).toUTF8
    else if system.optionFile? options.symbolsOut? = some names then
      some assembly.symbols.toJson.pretty.toUTF8
    else
      system.content? names
  printed_eq : after.printed = system.printed ++
    system.optionEchoed options.symbolsOut? assembly.symbols.toJson.pretty ++
    system.optionEchoed options.output? (assembly.render options.format) ++
    outcome.output.toUTF8

section Run

variable {system exported stored after : FileSystem} {arguments : List String}
  {options : Options} {outcome : Outcome} {assembly : Assembly}

theorem published_of_stores
    (exports : Stores system assembly.symbols.toJson.pretty
      options.symbolsOut? exported)
    (stores : Stores exported (assembly.render options.format)
      options.output? stored) :
    Published system options assembly
      (.done (printedText (assembly.render options.format) options.output?))
      (stored.print
        (printedText (assembly.render options.format) options.output?).toUTF8)
    where
  outcome_eq := rfl
  content?_eq names := by
    change stored.content? names = _
    rw [stores.content?, exports.optionFile?, exports.content?]
  printed_eq := by
    change stored.printed ++ _ = _
    rw [stores.printed, exports.optionEchoed, exports.printed]
    rfl

/-- No path of the options leads to standard output. -/
def Options.SparesStandardOutput (options : Options) (system : FileSystem) :
    Prop :=
  ∀ path, options.symbolsOut? = some path ∨ options.output? = some path →
    system.destination? path ≠ some (.device .standardOutput)

theorem optionEchoed_of_spared {path? : Option String} {text : String}
    (spared : ∀ path, path? = some path →
      system.destination? path ≠ some (.device .standardOutput)) :
    system.optionEchoed path? text = .empty := by
  cases path? with
  | none => rfl
  | some path => exact if_neg (spared path rfl)

theorem append_toUTF8_eq_iff {bytes : ByteArray} {text : String} :
    bytes ++ text.toUTF8 = bytes ↔ text = "" := by
  constructor
  · intro same
    have sizes := congrArg ByteArray.size same
    rw [ByteArray.size_append] at sizes
    have noBytes : text.toUTF8 = ByteArray.empty :=
      ByteArray.size_eq_zero_iff.mp (by omega)
    exact String.toByteArray_inj.mp noBytes
  · rintro rfl
    exact ByteArray.append_empty

theorem printedText_eq_empty_iff {text : String} {output? : Option String} :
    printedText text output? = "" ↔ output?.isSome = true := by
  cases output? with
  | none => simp [printedText]
  | some path => simp [printedText]

/-- Unless a path leads to standard output, a run that has published an
assembly leaves it empty just if it was given a path for the output. -/
theorem Published.printed_eq_iff
    (published : Published system options assembly outcome after)
    (spared : options.SparesStandardOutput system) :
    after.printed = system.printed ↔ options.output?.isSome = true := by
  have noSymbols : system.optionEchoed options.symbolsOut?
      assembly.symbols.toJson.pretty = .empty :=
    optionEchoed_of_spared fun path asked => spared path (.inl asked)
  have noOutput : system.optionEchoed options.output?
      (assembly.render options.format) = .empty :=
    optionEchoed_of_spared fun path asked => spared path (.inr asked)
  rw [published.printed_eq, noSymbols, noOutput, ByteArray.append_empty,
    ByteArray.append_empty, append_toUTF8_eq_iff, published.outcome_eq]
  exact printedText_eq_empty_iff

/-- A run fails with a report, or it publishes an assembly. -/
theorem RunEnds.failed_or_published
    (ends : RunEnds system options outcome after) :
    (∃ report, outcome = .failed report) ∨
      ∃ assembly, Assembles system options assembly ∧
        Published system options assembly outcome after := by
  cases ends with
  | published assembles exports stores =>
      exact .inr ⟨_, assembles, published_of_stores exports stores⟩
  | _ => exact .inl ⟨_, rfl⟩

end Run

/-- A session ends as its stages allow: with exit code 1 and the report of the
first stage that fails, or with exit code 0 after its assembly was published. -/
theorem session_refines_assembly {arguments : List String} {options : Options}
    (asks : Request.ofArguments arguments = .run options)
    (system : FileSystem) :
    let outcome := (session system arguments).1
    let after := (session system arguments).2
    (∀ ending final, session system arguments = (ending, final) ↔
      RunEnds system options ending final) ∧
    ((outcome.exitCode = 1 ∧ ∃ report, outcome = .failed report) ∨
      (outcome.exitCode = 0 ∧ ∃ assembly,
        Assembles system options assembly ∧
        Published system options assembly outcome after ∧
        (options.SparesStandardOutput system →
          (after.printed = system.printed ↔ options.output?.isSome = true)))) := by
  intro outcome after
  refine ⟨fun _ _ => session_eq_iff asks, ?_⟩
  have ends : RunEnds system options outcome after := (session_eq_iff asks).mp rfl
  rcases ends.failed_or_published with
    ⟨report, failed⟩ | ⟨assembly, assembles, published⟩
  · exact .inl ⟨failed ▸ rfl, report, failed⟩
  · exact .inr ⟨published.outcome_eq ▸ rfl, assembly, assembles, published,
      published.printed_eq_iff⟩

/-! ### One file for both outputs -/

namespace SharedOutput

def source : String :=
  "main: j main\nend: .text main: j main"

def configuration : String :=
  "\x7b\"base_address\": 8, \"entry_label\": \"MAIN\", " ++
    "\"label_scan\": \"whole\"\x7d"

def system : FileSystem :=
  .ofDirectory
    [("in.s", source.toUTF8), ("c.json", configuration.toUTF8)]

def arguments : List String :=
  ["in.s", "--config", "c.json", "--base", "0x10", "--text-only", "--format",
    "hex", "--symbols-out", "out", "-o", "./out"]

def options : Options where
  source := "in.s"
  output? := some "./out"
  format := .hexadecimal
  config? := some "c.json"
  base? := some "0x10"
  entry? := none
  textOnly := true
  symbolsOut? := some "out"

def settings : Settings where
  baseAddress := 0x10
  entryLabel := "MAIN"
  labelScope := .afterText

def assembly : Assembly where
  baseAddress := 0x10
  symbols := .ofList [("main", 0x10)]
  instructions := [.jump 2 0x10]

/-- The base address and the label scope are those on the command line, the
entry label is the configured one, and the file that both paths lead to holds
the assembly. -/
theorem holds_assembly :
    Request.ofArguments arguments = .run options ∧
      (session system arguments).1 = .done "" ∧
      (session system arguments).2.content? ["tmp", "work", "out"] =
        some "08000010".toUTF8 ∧
      (session system arguments).2.printed = .empty := by
  have asks : Request.ofArguments arguments = .run options := by decide +kernel
  have configured : system.settings options = .ok settings := by decide +kernel
  have read : system.readText "in.s" = .ok source := by decide +kernel
  have assembled : assemble settings source = .ok assembly := by decide +kernel
  have rendered : assembly.render .hexadecimal = "08000010" := by decide +kernel
  have leads : system.optionFile? (some "./out") =
      some ["tmp", "work", "out"] := by decide +kernel
  have spared : options.SparesStandardOutput system := by
    rintro path (⟨⟨⟩⟩ | ⟨⟨⟩⟩) <;> decide +kernel
  have succeeds : (session system arguments).1.exitCode = 0 := by decide +kernel
  have assembles : Assembles system options assembly :=
    ⟨settings_eq_iff.mp configured, read, assembled⟩
  obtain ⟨-, ⟨fails, -⟩ | ⟨-, other, assemblesToo, published, silent_iff⟩⟩ :=
    session_refines_assembly asks system
  · rw [succeeds] at fails
    cases fails
  · obtain rfl := assembles.unique assemblesToo
    have content := published.content?_eq ["tmp", "work", "out"]
    exact ⟨asks, published.outcome_eq,
      rendered ▸ content.trans (if_pos leads), (silent_iff spared).mpr rfl⟩

end SharedOutput

/-! ### An output path that leads to standard output -/

namespace OutputOnDevice

def system : FileSystem :=
  .ofDirectory [("in.s", "main: jr $ra\n".toUTF8)]

def arguments : List String :=
  ["in.s", "-o", "/dev/stdout"]

def options : Options where
  source := "in.s"
  output? := some "/dev/stdout"
  format := .binary
  config? := none
  base? := none
  entry? := none
  textOnly := false
  symbolsOut? := none

/-- Standard output is not always empty after a run with an output path. -/
theorem not_forall_printed_eq_iff :
    ¬ ∀ (system : FileSystem) (arguments : List String) (options : Options),
      Request.ofArguments arguments = .run options →
      (session system arguments).1.exitCode = 0 →
      ((session system arguments).2.printed = system.printed ↔
        options.output?.isSome = true) := by
  intro empty_iff
  have empty := (empty_iff system arguments options (by decide +kernel)
    (by decide +kernel)).mpr rfl
  revert empty
  decide +kernel

end OutputOnDevice

/-! ## Runs that fail -/

/-- The symbol table has been written where the options ask for it, if they do,
and nothing else has happened. -/
structure Exports (system : FileSystem) (options : Options)
    (assembly : Assembly) (exported : FileSystem) : Prop where
  stores : Stores system assembly.symbols.toJson.pretty options.symbolsOut?
    exported
  content?_eq : ∀ names, exported.content? names =
    if system.optionFile? options.symbolsOut? = some names then
      some assembly.symbols.toJson.pretty.toUTF8
    else
      system.content? names
  printed_eq : exported.printed = system.printed ++
    system.optionEchoed options.symbolsOut? assembly.symbols.toJson.pretty
  optionFile?_eq : ∀ path?, exported.optionFile? path? =
    system.optionFile? path?

/-- How a run ends that fails in one of its writes, and what it leaves behind.
If it is the output that breaks off, then the symbol table has been written in
full before, where it was asked for. -/
inductive FailsToWrite (system : FileSystem) (options : Options)
    (assembly : Assembly) : Report → FileSystem → Prop
  | symbols {path : String} {fault : FileFault} {after : FileSystem}
      (asked : options.symbolsOut? = some path)
      (breaksOff : system.BreaksOff path
        assembly.symbols.toJson.pretty.toUTF8 fault after) :
      FailsToWrite system options assembly
        ⟨"writing " ++ path, some fault.message⟩ after
  | output {exported : FileSystem} {path : String} {fault : FileFault}
      {after : FileSystem}
      (exports : Exports system options assembly exported)
      (asked : options.output? = some path)
      (breaksOff : exported.BreaksOff path
        (assembly.render options.format).toUTF8 fault after) :
      FailsToWrite system options assembly
        ⟨"writing " ++ path, some fault.message⟩ after

section Run

variable {system after : FileSystem} {arguments : List String}
  {options : Options} {assembly : Assembly} {report : Report}

/-- A file to which neither path leads is as it was. -/
theorem FailsToWrite.content?_eq {names : List String}
    (fails : FailsToWrite system options assembly report after)
    (notSymbols : system.optionFile? options.symbolsOut? ≠ some names)
    (notOutput : system.optionFile? options.output? ≠ some names) :
    after.content? names = system.content? names := by
  cases fails with
  | symbols asked breaksOff =>
      rw [asked] at notSymbols
      exact (breaksOff.content?_eq names).resolve_right
        fun other => notSymbols other.1
  | output exports asked breaksOff =>
      rw [← exports.optionFile?_eq, asked] at notOutput
      have kept := (breaksOff.content?_eq names).resolve_right
        fun other => notOutput other.1
      rw [kept, exports.content?_eq, if_neg notSymbols]

end Run

namespace FullDisk

/-- The disk has room for the source, the symbol table, and seventeen bytes
more. -/
def system : FileSystem :=
  { FileSystem.ofDirectory [("a.s", "main: jr $ra".toUTF8)] with
    storage := .ofCapacity 50 }

def arguments : List String :=
  ["a.s", "--symbols-out", "s.json", "-o", "out"]

def options : Options where
  source := "a.s"
  output? := some "out"
  format := .binary
  config? := none
  base? := none
  entry? := none
  textOnly := false
  symbolsOut? := some "s.json"

def assembly : Assembly where
  baseAddress := 0x00400000
  symbols := .ofList [("main", 0x00400000)]
  instructions := [.register 0 31 0 0 0 8]

end FullDisk

/-! ### An output file in a missing directory -/

namespace MissingDirectory

def system : FileSystem :=
  .ofDirectory [("a.s", "main:".toUTF8)]

def arguments : List String :=
  ["a.s", "--symbols-out", "s.json", "-o", "missing/out"]

end MissingDirectory

end MipsAssembler.CommandLine
