import MipsAssembler.Proofs.CommandLine.Output
import MipsAssembler.Proofs.Program.SettingsLayer

/-!
# Runs stage by stage

Relations say what settles the settings of a run, and how a run ends.  Their
cases are in the order of the stages: a case in which one stage fails asks that
the stages before it have succeeded, and nothing of those after it.  A session
ends in the one way that they allow.
-/

namespace MipsAssembler.CommandLine

/-! ## Settings -/

/-- The layer of settings that the options give, if the base address is one. -/
def Options.settingsLayer (options : Options) :
    Except AddressFault SettingsLayer := do
  let baseAddress? ← options.base?.mapM readAddress
  return {
    baseAddress?
    entryLabel? := options.entry?
    labelScope? := if options.textOnly then some .afterText else none }

theorem Options.settingsLayer_eq_error {options : Options} {fault : AddressFault}
    (fails : options.settingsLayer = .error fault) :
    ∃ base, options.base? = some base ∧ readAddress base = .error fault := by
  unfold settingsLayer at fails
  cases asked : options.base? with
  | none =>
      rw [asked] at fails
      cases fails
  | some base =>
      refine ⟨base, rfl, ?_⟩
      rw [asked, Option.mapM_some] at fails
      cases accepted : readAddress base with
      | error _ =>
          rw [accepted] at fails
          cases fails
          rfl
      | ok address =>
          rw [accepted] at fails
          cases fails

/-- The layer of settings in the configuration file.  Without a file, all
settings are left open. -/
inductive Configures (system : FileSystem) :
    Option String → SettingsLayer → Prop
  | nothing : Configures system none {}
  | file {path text : String} {json : Json} {layer : SettingsLayer}
      (read : system.readText path = .ok text)
      (parsed : Json.read? text = some json)
      (readFrom : layer.IsReadFrom json) :
      Configures system (some path) layer

/-- The settings of a run, or the report that it has none.  What the options
give comes before what is configured. -/
inductive Settles (system : FileSystem) (options : Options) :
    Except Report Settings → Prop
  | configUnreadable {path : String} {fault : FileFault}
      (asked : options.config? = some path)
      (unreadable : system.readText path = .error fault) :
      Settles system options
        (.error ⟨"reading config " ++ path, some fault.message⟩)
  | configInvalid {path text : String}
      (asked : options.config? = some path)
      (read : system.readText path = .ok text)
      (invalid : ∀ (json : Json) (layer : SettingsLayer),
        Json.read? text = some json → ¬ layer.IsReadFrom json) :
      Settles system options (.error ⟨"parsing config " ++ path, none⟩)
  | baseInvalid {configured : SettingsLayer} {base : String}
      {fault : AddressFault}
      (configures : Configures system options.config? configured)
      (asked : options.base? = some base)
      (invalid : readAddress base = .error fault) :
      Settles system options
        (.error ⟨"bad --base " ++ base, some fault.message⟩)
  | settled {configured given : SettingsLayer}
      (configures : Configures system options.config? configured)
      (gives : options.settingsLayer = .ok given) :
      Settles system options (.ok (given.above configured).complete)

section Settings

variable {system : FileSystem} {options : Options}

theorem perform_of_configures {config? : Option String} {layer : SettingsLayer}
    (configures : Configures system config? layer) :
    perform (configuredSettings config?) system =
      (.ok layer.complete, system) := by
  cases configures with
  | nothing => rfl
  | file read parsed readFrom =>
      have means : Settings.read? _ = some layer.complete :=
        Option.bind_eq_some_iff.mpr ⟨_, parsed,
          Settings.ofJson?_eq_some_iff.mpr ⟨layer, readFrom, rfl⟩⟩
      rw [configuredSettings, perform_bind, perform_readOrReport, read]
      simp only [means, perform_pure]

theorem settings_of_configures {configured : SettingsLayer}
    (configures : Configures system options.config? configured) :
    system.settings options =
      (chosenBase configured.complete.baseAddress options.base?).map
        fun baseAddress =>
          { baseAddress
            entryLabel := options.entry?.getD configured.complete.entryLabel
            labelScope :=
              if options.textOnly then .afterText
              else configured.complete.labelScope } := by
  rw [FileSystem.settings, effectiveSettings, perform_bind,
    perform_of_configures configures]
  simp only [perform_bind, perform_ofExcept]
  cases chosenBase configured.complete.baseAddress options.base? <;> rfl

theorem settings_of_settingsLayer {configured given : SettingsLayer}
    (configures : Configures system options.config? configured)
    (gives : options.settingsLayer = .ok given) :
    system.settings options = .ok (given.above configured).complete := by
  rw [settings_of_configures configures, SettingsLayer.complete_above]
  unfold Options.settingsLayer at gives
  cases asked : options.base? with
  | none =>
      rw [asked] at gives
      cases gives
      cases options.textOnly <;> rfl
  | some base =>
      rw [asked] at gives
      cases accepted : readAddress base with
      | error fault =>
          rw [Option.mapM_some, accepted] at gives
          cases gives
      | ok address =>
          rw [Option.mapM_some, accepted] at gives
          cases gives
          rw [chosenBase, accepted]
          cases options.textOnly <;> rfl

theorem Settles.settings_eq {result : Except Report Settings}
    (settles : Settles system options result) :
    system.settings options = result := by
  cases settles with
  | configUnreadable asked unreadable =>
      rw [FileSystem.settings, effectiveSettings, perform_bind, asked,
        configuredSettings, perform_bind, perform_readOrReport, unreadable]
      rfl
  | @configInvalid path text asked read invalid =>
      have meaningless : Settings.read? text = none := by
        rw [Option.eq_none_iff_forall_not_mem]
        intro settings means
        obtain ⟨json, parsed, denotes⟩ := Option.bind_eq_some_iff.mp means
        obtain ⟨layer, readFrom, -⟩ :=
          Settings.ofJson?_eq_some_iff.mp denotes
        exact invalid json layer parsed readFrom
      rw [FileSystem.settings, effectiveSettings, perform_bind, asked,
        configuredSettings, perform_bind, perform_readOrReport, read]
      simp only [meaningless, perform_throw]
  | baseInvalid configures asked invalid =>
      rw [settings_of_configures configures, asked, chosenBase, invalid]
      rfl
  | settled configures gives => exact settings_of_settingsLayer configures gives

/-- The configuration is a layer of settings, or the run has no settings. -/
theorem exists_configures_or_settles (system : FileSystem)
    (options : Options) :
    (∃ configured, Configures system options.config? configured) ∨
      ∃ report, Settles system options (.error report) := by
  cases asked : options.config? with
  | none => exact .inl ⟨{}, .nothing⟩
  | some path =>
      cases read : system.readText path with
      | error fault => exact .inr ⟨_, .configUnreadable asked read⟩
      | ok text =>
          by_cases valid : ∃ json, Json.read? text = some json ∧
              ∃ layer : SettingsLayer, layer.IsReadFrom json
          · obtain ⟨json, parsed, layer, readFrom⟩ := valid
            exact .inl ⟨layer, .file read parsed readFrom⟩
          · exact .inr ⟨_, .configInvalid asked read
              fun json layer parsed readFrom =>
                valid ⟨json, parsed, layer, readFrom⟩⟩

theorem exists_settles (system : FileSystem) (options : Options) :
    ∃ result, Settles system options result := by
  rcases exists_configures_or_settles system options with
    ⟨configured, configures⟩ | ⟨report, settles⟩
  · cases gives : options.settingsLayer with
    | ok given => exact ⟨_, .settled configures gives⟩
    | error fault =>
        obtain ⟨base, asked, invalid⟩ := Options.settingsLayer_eq_error gives
        exact ⟨_, .baseInvalid configures asked invalid⟩
  · exact ⟨_, settles⟩

theorem settings_eq_iff {result : Except Report Settings} :
    system.settings options = result ↔ Settles system options result := by
  constructor
  · rintro rfl
    obtain ⟨result, settles⟩ := exists_settles system options
    exact settles.settings_eq ▸ settles
  · exact Settles.settings_eq

end Settings

/-! ## Publication -/

/-- A text is written to the path that is given, if one is. -/
inductive Stores (system : FileSystem) (text : String) :
    Option String → FileSystem → Prop
  | nowhere : Stores system text none system
  | file {path : String} {after : FileSystem}
      (written : system.write path text.toUTF8 = (.ok (), after)) :
      Stores system text (some path) after

/-- What is printed of a text: all of it and a line feed, unless it is written
to a path. -/
def printedText (text : String) : Option String → String
  | none => text ++ "\n"
  | some _ => ""

section Publication

variable {system after : FileSystem} {symbols : SymbolTable} {text : String}
  {symbolsOut? output? : Option String}

theorem Stores.perform_exportSymbols
    (stores : Stores system symbols.toJson.pretty symbolsOut? after) :
    perform (exportSymbols symbols symbolsOut?) system = (.ok (), after) := by
  cases stores with
  | nowhere => rfl
  | file written => rw [exportSymbols, perform_writeOrReport, written]

theorem Stores.perform_deliver (stores : Stores system text output? after) :
    perform (deliver text output?) system =
      (.ok (printedText text output?), after) := by
  cases stores with
  | nowhere => rfl
  | file written =>
      rw [deliver, perform_bind, perform_writeOrReport, written]
      rfl

theorem exists_stores_or_unwritable (system : FileSystem) (text : String)
    (path? : Option String) :
    (∃ after, Stores system text path? after) ∨
      ∃ path fault after, path? = some path ∧
        system.write path text.toUTF8 = (.error fault, after) := by
  cases path? with
  | none => exact .inl ⟨system, .nowhere⟩
  | some path =>
      rcases written : system.write path text.toUTF8 with ⟨fault | _, after⟩
      · exact .inr ⟨path, fault, after, rfl, written⟩
      · exact .inl ⟨after, .file written⟩

end Publication

/-! ## Runs -/

/-- The settings and the source of a run yield the assembly. -/
inductive Assembles (system : FileSystem) (options : Options)
    (assembly : Assembly) : Prop
  | intro {settings : Settings} {source : String}
      (settles : Settles system options (.ok settings))
      (read : system.readText options.source = .ok source)
      (assembled : assemble settings source = .ok assembly)

/-- How a run ends, and the file system after it.  A run that cannot write leaves
behind what the write has left that failed. -/
inductive RunEnds (system : FileSystem) (options : Options) :
    Outcome → FileSystem → Prop
  | unsettled {report : Report}
      (settles : Settles system options (.error report)) :
      RunEnds system options (.failed report) system
  | sourceUnreadable {settings : Settings} {fault : FileFault}
      (settles : Settles system options (.ok settings))
      (unreadable : system.readText options.source = .error fault) :
      RunEnds system options
        (.failed ⟨"reading " ++ options.source, some fault.message⟩) system
  | lexical {settings : Settings} {source : String} {error : LexicalError}
      (settles : Settles system options (.ok settings))
      (read : system.readText options.source = .ok source)
      (refused : assemble settings source = .error (.lexical error)) :
      RunEnds system options
        (.failed ⟨options.source ++
          ":" ++ Radix.decimal.write error.position.line ++
          ":" ++ Radix.decimal.write error.position.column ++
          ": " ++ error.fault.message, none⟩) system
  | syntactic {settings : Settings} {source : String} {error : SyntacticError}
      (settles : Settles system options (.ok settings))
      (read : system.readText options.source = .ok source)
      (refused : assemble settings source = .error (.syntactic error)) :
      RunEnds system options
        (.failed ⟨options.source ++ ": " ++ error.message, none⟩) system
  | symbolsUnwritable {assembly : Assembly} {path : String} {fault : FileFault}
      {after : FileSystem}
      (assembles : Assembles system options assembly)
      (asked : options.symbolsOut? = some path)
      (unwritable : system.write path assembly.symbols.toJson.pretty.toUTF8 =
        (.error fault, after)) :
      RunEnds system options
        (.failed ⟨"writing " ++ path, some fault.message⟩) after
  | outputUnwritable {assembly : Assembly} {exported after : FileSystem}
      {path : String} {fault : FileFault}
      (assembles : Assembles system options assembly)
      (exports : Stores system assembly.symbols.toJson.pretty
        options.symbolsOut? exported)
      (asked : options.output? = some path)
      (unwritable : exported.write path
        (assembly.render options.format).toUTF8 = (.error fault, after)) :
      RunEnds system options
        (.failed ⟨"writing " ++ path, some fault.message⟩) after
  | published {assembly : Assembly} {exported stored : FileSystem}
      (assembles : Assembles system options assembly)
      (exports : Stores system assembly.symbols.toJson.pretty
        options.symbolsOut? exported)
      (stores : Stores exported (assembly.render options.format)
        options.output? stored) :
      RunEnds system options
        (.done (printedText (assembly.render options.format) options.output?))
        (stored.print
          (printedText (assembly.render options.format) options.output?).toUTF8)

section Run

variable {system after : FileSystem} {arguments : List String}
  {options : Options} {outcome : Outcome} {assembly : Assembly}

theorem Assembles.unique {other : Assembly}
    (assembles : Assembles system options assembly)
    (assemblesToo : Assembles system options other) : assembly = other := by
  obtain ⟨settles, read, assembled⟩ := assembles
  obtain ⟨settlesToo, readToo, assembledToo⟩ := assemblesToo
  cases settles.settings_eq.symm.trans settlesToo.settings_eq
  cases read.symm.trans readToo
  exact Except.ok.inj (assembled.symm.trans assembledToo)

theorem Assembles.session_eq
    (asks : Request.ofArguments arguments = .run options)
    (assembles : Assembles system options assembly) :
    session system arguments =
      conclude (perform (publish options assembly) system) := by
  obtain ⟨settles, read, assembled⟩ := assembles
  exact session_of_assembled asks settles.settings_eq read assembled

theorem Assembles.session_eq_of_exports {exported : FileSystem}
    (asks : Request.ofArguments arguments = .run options)
    (assembles : Assembles system options assembly)
    (exports : Stores system assembly.symbols.toJson.pretty
        options.symbolsOut? exported) :
    session system arguments = conclude
      (perform (deliver (assembly.render options.format) options.output?)
        exported) := by
  rw [assembles.session_eq asks, publish, perform_bind,
    exports.perform_exportSymbols]

theorem RunEnds.session_eq
    (asks : Request.ofArguments arguments = .run options)
    (ends : RunEnds system options outcome after) :
    session system arguments = (outcome, after) := by
  cases ends with
  | unsettled settles =>
      rw [session_of_run asks, perform_runStages, settles.settings_eq]
      rfl
  | sourceUnreadable settles unreadable =>
      rw [session_of_run asks, perform_runStages, settles.settings_eq]
      simp only [unreadable]
      rfl
  | lexical settles read refused | syntactic settles read refused =>
      rw [session_of_run asks, perform_runStages, settles.settings_eq]
      simp only [read, refused]
      rfl
  | symbolsUnwritable assembles asked unwritable =>
      rw [assembles.session_eq asks, publish, perform_bind, asked,
        exportSymbols, perform_writeOrReport, unwritable]
      rfl
  | outputUnwritable assembles exports asked unwritable =>
      rw [assembles.session_eq_of_exports asks exports, asked, deliver,
        perform_bind, perform_writeOrReport, unwritable]
      rfl
  | published assembles exports stores =>
      rw [assembles.session_eq_of_exports asks exports, stores.perform_deliver]
      rfl

theorem exists_runEnds_of_assembles
    (assembles : Assembles system options assembly) :
    ∃ outcome after, RunEnds system options outcome after := by
  rcases exists_stores_or_unwritable system assembly.symbols.toJson.pretty
      options.symbolsOut? with
    ⟨exported, exports⟩ | ⟨path, fault, after, asked, unwritable⟩
  · rcases exists_stores_or_unwritable exported
        (assembly.render options.format) options.output? with
      ⟨stored, stores⟩ | ⟨path, fault, after, asked, unwritable⟩
    · exact ⟨_, _, .published assembles exports stores⟩
    · exact ⟨_, _, .outputUnwritable assembles exports asked unwritable⟩
  · exact ⟨_, _, .symbolsUnwritable assembles asked unwritable⟩

theorem exists_runEnds (system : FileSystem) (options : Options) :
    ∃ outcome after, RunEnds system options outcome after := by
  obtain ⟨report | settings, settles⟩ := exists_settles system options
  · exact ⟨_, _, .unsettled settles⟩
  cases read : system.readText options.source with
  | error fault => exact ⟨_, _, .sourceUnreadable settles read⟩
  | ok source =>
      cases assembled : assemble settings source with
      | error error =>
          cases error with
          | lexical error => exact ⟨_, _, .lexical settles read assembled⟩
          | syntactic error => exact ⟨_, _, .syntactic settles read assembled⟩
      | ok assembly =>
          exact exists_runEnds_of_assembles ⟨settles, read, assembled⟩

/-- A session ends as its run does. -/
theorem session_eq_iff (asks : Request.ofArguments arguments = .run options) :
    session system arguments = (outcome, after) ↔
      RunEnds system options outcome after := by
  constructor
  · intro ended
    obtain ⟨_, _, ends⟩ := exists_runEnds system options
    obtain ⟨rfl, rfl⟩ := Prod.mk.inj (ended.symm.trans (ends.session_eq asks))
    exact ends
  · exact RunEnds.session_eq asks

end Run

end MipsAssembler.CommandLine
