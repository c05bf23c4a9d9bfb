import MipsAssembler.CommandLine.Session

/-!
# The stages of a session

A stage ends with a result or a report, in a file system that it may have
changed.  The stages before the assembly only read.
-/

namespace MipsAssembler.CommandLine

variable {α β : Type}

/-- Perform a stage in a file system. -/
def perform (stage : ExceptT Report (StateM FileSystem) α)
    (system : FileSystem) : Except Report α × FileSystem :=
  stage.run.run system

/-! ## Single stages -/

@[simp]
theorem perform_pure (result : α) (system : FileSystem) :
    perform (pure result) system = (.ok result, system) :=
  rfl

@[simp]
theorem perform_throw (report : Report) (system : FileSystem) :
    perform (throw report : ExceptT Report (StateM FileSystem) α) system =
      (.error report, system) :=
  rfl

/-- A stage goes on where the one before it has ended, unless that failed. -/
theorem perform_bind (stage : ExceptT Report (StateM FileSystem) α)
    (next : α → ExceptT Report (StateM FileSystem) β) (system : FileSystem) :
    perform (stage >>= next) system =
      match perform stage system with
      | (.ok result, after) => perform (next result) after
      | (.error report, after) => (.error report, after) := by
  change (ExceptT.bindCont next (perform stage system).1).run
    (perform stage system).2 = _
  rcases perform stage system with ⟨_ | _, after⟩ <;> rfl

theorem perform_bind_eq_ok_iff {stage : ExceptT Report (StateM FileSystem) α}
    {next : α → ExceptT Report (StateM FileSystem) β}
    {system after : FileSystem} {result : β} :
    perform (stage >>= next) system = (.ok result, after) ↔
      ∃ first between, perform stage system = (.ok first, between) ∧
        perform (next first) between = (.ok result, after) := by
  rw [perform_bind]
  rcases perform stage system with ⟨report | first, between⟩
  · simp
  · constructor
    · exact fun performed => ⟨first, between, rfl, performed⟩
    · rintro ⟨_, _, ⟨⟩, performed⟩
      exact performed

@[simp]
theorem perform_ofExcept (result : Except Report α) (system : FileSystem) :
    perform (Report.ofExcept result) system = (result, system) :=
  rfl

/-- The text that a path leads to. -/
def FileSystem.readText (system : FileSystem) (path : String) :
    Except FileFault String := do
  match String.fromUTF8? (← system.read path) with
  | some text => return text
  | none => throw .notText

/-- Reading a text leaves the file system alone. -/
theorem run_readText (system : FileSystem) (path : String) :
    (readText path : StateM FileSystem (Except FileFault String)).run system =
      (system.readText path, system) := by
  have accessed : (FileAccess.read path :
      StateM FileSystem (Except FileFault ByteArray)).run system =
        (system.read path, system) := rfl
  unfold readText FileSystem.readText
  rw [StateT.run_bind, accessed]
  cases system.read path with
  | error fault => rfl
  | ok bytes =>
      simp only [bind, Except.bind]
      cases String.fromUTF8? bytes <;> rfl

@[simp]
theorem perform_readOrReport (activity path : String) (system : FileSystem) :
    perform (readOrReport activity path) system =
      match system.readText path with
      | .ok text => (.ok text, system)
      | .error fault => (.error (fault.report activity path), system) := by
  have read := run_readText system path
  unfold perform readOrReport
  rw [ExceptT.run_mk, StateT.run_bind, read]
  cases system.readText path <;> rfl

@[simp]
theorem perform_writeOrReport (path text : String) (system : FileSystem) :
    perform (writeOrReport path text) system =
      match system.write path text.toUTF8 with
      | (.ok (), after) => (.ok (), after)
      | (.error fault, after) => (.error (fault.report "writing" path), after) := by
  have written : (FileAccess.write path text.toUTF8 :
      StateM FileSystem (Except FileFault Unit)).run system =
        system.write path text.toUTF8 := rfl
  unfold perform writeOrReport writeText
  rw [ExceptT.run_mk, StateT.run_bind, written]
  rcases system.write path text.toUTF8 with ⟨_ | _, after⟩ <;> rfl

/-! ## The stages up to the assembly -/

theorem perform_configuredSettings (config? : Option String)
    (system : FileSystem) :
    (perform (configuredSettings config?) system).2 = system := by
  cases config? with
  | none => rfl
  | some path =>
      rw [configuredSettings, perform_bind, perform_readOrReport]
      cases system.readText path with
      | error fault => rfl
      | ok text =>
          dsimp only
          cases Settings.read? text <;> rfl

/-- The settings of a run that begins in the file system. -/
def FileSystem.settings (system : FileSystem) (options : Options) :
    Except Report Settings :=
  (perform (effectiveSettings options) system).1

theorem perform_effectiveSettings (options : Options) (system : FileSystem) :
    perform (effectiveSettings options) system =
      (system.settings options, system) := by
  have unchanged : (perform (effectiveSettings options) system).2 = system := by
    have reads := perform_configuredSettings options.config? system
    rw [effectiveSettings, perform_bind]
    generalize perform (configuredSettings options.config?) system = result
      at reads
    obtain ⟨report | configured, after⟩ := result
    · exact reads
    · obtain rfl : after = system := reads
      simp only [perform_bind, perform_ofExcept]
      cases chosenBase configured.baseAddress options.base? <;> rfl
  exact Prod.ext rfl unchanged

/-- What a run does once its source is assembled. -/
def publish (options : Options) (assembly : Assembly) :
    ExceptT Report (StateM FileSystem) String := do
  exportSymbols assembly.symbols options.symbolsOut?
  deliver (assembly.render options.format) options.output?

theorem perform_runStages (options : Options) (system : FileSystem) :
    perform (runStages options) system =
      match system.settings options with
      | .error report => (.error report, system)
      | .ok settings =>
          match system.readText options.source with
          | .error fault =>
              (.error (fault.report "reading" options.source), system)
          | .ok source =>
              match assemble settings source with
              | .error error =>
                  (.error (assemblyReport options.source error), system)
              | .ok assembly => perform (publish options assembly) system := by
  rw [runStages, perform_bind, perform_effectiveSettings]
  cases system.settings options with
  | error report => rfl
  | ok settings =>
      simp only [perform_bind, perform_readOrReport]
      cases system.readText options.source with
      | error fault => rfl
      | ok source =>
          simp only [perform_ofExcept]
          cases assemble settings source with
          | error error => rfl
          | ok assembly => exact (perform_bind _ _ _).symm

/-! ## Sessions -/

/-- How a session ends after its stages: it prints their result, if there is
one. -/
def conclude : Except Report String × FileSystem → Outcome × FileSystem
  | (.ok text, after) => (.done text, after.print text.toUTF8)
  | (.error report, after) => (.failed report, after)

theorem session_of_run {arguments : List String} {options : Options}
    (asks : Request.ofArguments arguments = .run options)
    (system : FileSystem) :
    session system arguments =
      conclude (perform (runStages options) system) := by
  have performed (stage : ExceptT Report (StateM FileSystem) String) :
      StateT.run stage.run system = perform stage system := rfl
  simp only [session, run, asks]
  rw [StateT.run_bind, performed]
  rcases perform (runStages options) system with ⟨report | text, after⟩
  · exact Prod.ext rfl after.print_empty
  · rfl

/-- A session that prints a text has a result. -/
theorem conclude_exitCode_eq_zero {ended : Except Report String × FileSystem}
    (succeeds : (conclude ended).1.exitCode = 0) :
    ∃ text after, ended = (.ok text, after) := by
  rcases ended with ⟨report | text, after⟩
  · cases succeeds
  · exact ⟨text, after, rfl⟩

end MipsAssembler.CommandLine
