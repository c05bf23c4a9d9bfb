import MipsAssembler.Proofs.CommandLine.FileSystem
import MipsAssembler.Proofs.CommandLine.Stages
import MipsAssembler.Proofs.Program.AssemblyJson
import MipsAssembler.Proofs.Program.LockStep
import MipsAssembler.Proofs.Program.Rendering

/-!
# One program in every format

Whatever format is chosen, the words of an assembly can be read off its text,
and a session hands this text over unchanged: on standard output with a line
feed after it, or in the output file.
-/

namespace MipsAssembler

namespace CommandLine

/-! ## Handing a text over -/

/-- The outcome and the file system after a text was handed over: it is printed
with a line feed at its end, or it is what the output file holds. -/
def HandsOver (text : String) (output? : Option String)
    (system : FileSystem) (outcome : Outcome) (after : FileSystem) : Prop :=
  match output? with
  | none =>
      outcome = .done (text ++ "\n") ∧
        after = system.print (text ++ "\n").toUTF8
  | some path =>
      outcome = .done "" ∧ system.write path text.toUTF8 = (.ok (), after) ∧
        (after.read path = .ok text.toUTF8 ∨
          ∃ device, system.destination path = .ok (.device device))

theorem handsOver_of_deliver {text printed : String}
    {output? : Option String} {system after : FileSystem}
    (delivered : perform (deliver text output?) system = (.ok printed, after)) :
    HandsOver text output? system (.done printed)
      (after.print printed.toUTF8) := by
  cases output? with
  | none =>
      cases delivered
      exact ⟨rfl, rfl⟩
  | some path =>
      rw [deliver, perform_bind, perform_writeOrReport] at delivered
      rcases written : system.write path text.toUTF8 with ⟨fault | _, changed⟩
      · rw [written] at delivered
        cases delivered
      · rw [written] at delivered
        cases delivered
        have unprinted : after.print "".toUTF8 = after := after.print_empty
        rw [unprinted]
        exact ⟨rfl, written, FileSystem.read_of_write written⟩

section Run

variable {system : FileSystem} {arguments : List String} {options : Options}
  {settings : Settings} {source : String} {assembly : Assembly}

/-- A session whose source can be assembled publishes the assembly. -/
theorem session_of_assembled
    (asks : Request.ofArguments arguments = .run options)
    (configured : system.settings options = .ok settings)
    (read : system.readText options.source = .ok source)
    (assembled : assemble settings source = .ok assembly) :
    session system arguments =
      conclude (perform (publish options assembly) system) := by
  rw [session_of_run asks, perform_runStages, configured]
  simp only [read, assembled]

/-- A session that succeeds has written the symbol table if asked to, and then
handed the text of the assembly over. -/
theorem handsOver_of_exitCode_eq_zero
    (asks : Request.ofArguments arguments = .run options)
    (configured : system.settings options = .ok settings)
    (read : system.readText options.source = .ok source)
    (assembled : assemble settings source = .ok assembly)
    (succeeds : (session system arguments).1.exitCode = 0) :
    ∃ exported,
      perform (exportSymbols assembly.symbols options.symbolsOut?) system =
        (.ok (), exported) ∧
      HandsOver (assembly.render options.format) options.output? exported
        (session system arguments).1 (session system arguments).2 := by
  rw [session_of_assembled asks configured read assembled] at succeeds ⊢
  obtain ⟨printed, after, published⟩ := conclude_exitCode_eq_zero succeeds
  rw [published]
  obtain ⟨_, exported, symbolsWritten, delivered⟩ :=
    perform_bind_eq_ok_iff.mp published
  exact ⟨exported, symbolsWritten, handsOver_of_deliver delivered⟩

/-- Without a file to write, nothing can fail once the source is assembled. -/
theorem exitCode_eq_zero_of_no_file
    (asks : Request.ofArguments arguments = .run options)
    (configured : system.settings options = .ok settings)
    (read : system.readText options.source = .ok source)
    (assembled : assemble settings source = .ok assembly)
    (noSymbols : options.symbolsOut? = none) (noOutput : options.output? = none) :
    (session system arguments).1.exitCode = 0 := by
  rw [session_of_assembled asks configured read assembled, publish, noSymbols,
    noOutput]
  rfl

end Run

end CommandLine

open CommandLine

/-- All formats show the words of the assembly, the listing also the addresses
at which they were encoded, and the command line hands the text over. -/
theorem assemble_render_words {settings : Settings} {source : String}
    {assembly : Assembly} (assembled : assemble settings source = .ok assembly) :
    assembly.LinesShowWords ∧
      (assembly.words = [] → ∀ format ≠ .json, assembly.render format = "") ∧
      assembly.baseAddress = settings.baseAddress ∧
      (∃ (tokens : List Token) (phrases : List Phrase),
        Token.ofSource Mips32.instructionSet source = .ok tokens ∧
        (entryBody? settings.entryLabel tokens).getD [] =
          phrases.flatMap Phrase.tokens ∧
        phrases.length = assembly.words.length ∧
        ∀ (index : Nat) (inside : index < phrases.length),
          (wordAddress settings.baseAddress index).toNat =
            (settings.baseAddress.toNat + 4 * index) % 0x100000000 ∧
          Encoding.run Mips32.instructionSet assembly.symbols
              (.start settings.baseAddress)
              ((phrases.take index).flatMap Phrase.tokens) =
            .ok ⟨wordAddress settings.baseAddress index,
              (assembly.instructions.take index).reverse, none⟩ ∧
          phrases[index].instruction? Mips32.instructionSet assembly.symbols
              (wordAddress settings.baseAddress index) =
            assembly.instructions[index]?) ∧
      Assembly.read? (assembly.render .json) = some assembly ∧
      ∀ (system : FileSystem) (arguments : List String) (options : Options),
        Request.ofArguments arguments = .run options →
        system.settings options = .ok settings →
        system.readText options.source = .ok source →
        let outcome := (session system arguments).1
        let after := (session system arguments).2
        (options.symbolsOut? = none → options.output? = none →
          outcome.exitCode = 0) ∧
        (outcome.exitCode = 0 → ∃ exported,
          perform (exportSymbols assembly.symbols options.symbolsOut?) system =
            (.ok (), exported) ∧
          HandsOver (assembly.render options.format) options.output? exported
            outcome after) := by
  obtain ⟨tokens, phrases, tokenized, baseEq, -, bodyEq, denote⟩ :=
    assemble_eq_ok_iff_phrases.mp assembled
  have lengths : phrases.length = assembly.instructions.length :=
    Phrase.length_eq_of_instructions? denote
  refine ⟨assembly.linesShowWords,
    fun noWords format => assembly.linesShowWords.render_eq_empty noWords, baseEq,
    ⟨tokens, phrases, tokenized, bodyEq, ?_, fun index inside => ?_⟩,
    assembly.read?_render_json,
    fun system arguments options asks configured read => ?_⟩
  · rw [lengths, Assembly.words, List.length_map]
  · have inEncoded : index < assembly.instructions.length := lengths ▸ inside
    have ran := Phrase.run_take denote index
    rw [List.length_take, Nat.min_eq_left inside.le] at ran
    refine ⟨toNat_wordAddress settings.baseAddress index, ran, ?_⟩
    rw [List.getElem?_eq_getElem inEncoded]
    exact Phrase.instruction?_getElem denote inside inEncoded
  · exact ⟨exitCode_eq_zero_of_no_file asks configured read assembled,
      handsOver_of_exitCode_eq_zero asks configured read assembled⟩

/-! ### A listing across the end of the address space -/

namespace WrappedListing

def source : String :=
  "main: addi $t0, $zero, -1\nbne $t0, $t1, main"

def settings : Settings :=
  { baseAddress := 0xFFFFFFFC }

def assembly : Assembly where
  baseAddress := 0xFFFFFFFC
  symbols := .ofList [("main", 0xFFFFFFFC)]
  instructions := [.immediate 8 0 8 (-1), .immediate 5 8 9 0x3FFFFFFF]

def text : String :=
  "0xfffffffc  0x2008ffff  00100000000010001111111111111111\n" ++
    "0x00000000  0x1509ffff  00010101000010011111111111111111"

def system : FileSystem :=
  .ofDirectory [("a.s", source.toUTF8)]

def arguments : List String :=
  ["a.s", "--base", "0xFFFFFFFC", "--format", "listing", "-o", "out"]

def options : Options where
  source := "a.s"
  output? := some "out"
  format := .listing
  config? := none
  base? := some "0xFFFFFFFC"
  entry? := none
  textOnly := false
  symbolsOut? := none

theorem assembled : assemble settings source = .ok assembly := by
  decide +kernel

/-- The second line of the listing shows the address zero, and a session with
an output file leaves the listing there. -/
theorem file_holds_listing :
    assemble settings source = .ok assembly ∧
      (∃ line, (Text.lines text)[1]? = some line ∧
        IsListingLine 0 0x1509FFFF line) ∧
      Assembly.read? (assembly.render .json) = some assembly ∧
      (session system arguments).1 = .done "" ∧
      (session system arguments).2.read "out" = .ok text.toUTF8 := by
  have asks : Request.ofArguments arguments = .run options := by decide +kernel
  have configured : system.settings options = .ok settings := by decide +kernel
  have read : system.readText "a.s" = .ok source := by decide +kernel
  have succeeds : (session system arguments).1.exitCode = 0 := by decide +kernel
  have rendered : assembly.render .listing = text := by decide +kernel
  have noDevice : system.destination "out" =
      .ok (.vacant ["tmp", "work", "out"]) := by decide +kernel
  obtain ⟨shown, -, -, -, json, run⟩ := assemble_render_words assembled
  obtain ⟨exported, symbolsWritten, outcome, -, holds⟩ :=
    (run system arguments options asks configured read).2 succeeds
  obtain rfl : system = exported := congrArg Prod.snd symbolsWritten
  have words : assembly.words.zipIdx = [(0x2008FFFF, 0), (0x1509FFFF, 1)] := by
    decide +kernel
  have wrapped : wordAddress assembly.baseAddress 1 = 0 := by decide
  have lines := shown.listing
  rw [rendered, words] at lines
  refine ⟨assembled, ?_, json, outcome, ?_⟩
  · obtain ⟨first, later, -, laterShow, linesEq⟩ :=
      List.forall₂_cons_right_iff.mp lines
    obtain ⟨second, rest, secondShows, -, rfl⟩ :=
      List.forall₂_cons_right_iff.mp laterShow
    rw [wrapped] at secondShows
    exact ⟨second, by rw [linesEq]; rfl, secondShows⟩
  · rcases holds with holds | ⟨device, isDevice⟩
    · exact rendered ▸ holds
    · rw [noDevice] at isDevice
      cases isDevice

end WrappedListing

end MipsAssembler
