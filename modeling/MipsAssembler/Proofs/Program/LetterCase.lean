import MipsAssembler.Proofs.Program.Assembly
import MipsAssembler.Proofs.Source.LetterCase

/-!
# Programs up to letter case

The case of ASCII letters does not matter to a program, nor to the name of its
entry label.  Only the texts that a lexical fault quotes keep the case in which
they are written.
-/

namespace MipsAssembler

variable {instructions : InstructionSet} {settings : Settings}

/-! ## Errors -/

/-- The error with the texts that it quotes from the source in lower case; a
syntactic error quotes tokens, which are in lower case already. -/
def AssemblyError.foldCase : AssemblyError → AssemblyError
  | lexical error => lexical error.foldCase
  | syntactic error => syntactic error

/-- Two runs agree, up to the case of the letters that a lexical fault
quotes. -/
inductive Assembly.EqualUpToCase :
    Except AssemblyError Assembly → Except AssemblyError Assembly → Prop
  | assembled (assembly : Assembly) :
      EqualUpToCase (.ok assembly) (.ok assembly)
  | syntactic (error : SyntacticError) :
      EqualUpToCase (.error (.syntactic error)) (.error (.syntactic error))
  | lexical (fault other : LexicalFault) (position : Position)
      (sameFault : fault.foldCase = other.foldCase) :
      EqualUpToCase (.error (.lexical ⟨fault, position⟩))
        (.error (.lexical ⟨other, position⟩))

theorem Assembly.equalUpToCase_of_mapError_eq
    {first second : Except AssemblyError Assembly}
    (same : first.mapError AssemblyError.foldCase =
      second.mapError AssemblyError.foldCase) : EqualUpToCase first second := by
  cases first with
  | ok assembly =>
      cases second with
      | ok other =>
          obtain rfl : assembly = other := Except.ok.inj same
          exact .assembled assembly
      | error error => cases same
  | error error =>
      cases second with
      | ok other => cases same
      | error other =>
          have sameError : error.foldCase = other.foldCase :=
            Except.error.inj same
          cases error with
          | syntactic error =>
              cases other with
              | syntactic other =>
                  obtain rfl := AssemblyError.syntactic.inj sameError
                  exact .syntactic error
              | lexical other => cases sameError
          | lexical error =>
              cases other with
              | syntactic other => cases sameError
              | lexical other =>
                  obtain ⟨fault, position⟩ := error
                  obtain ⟨otherFault, otherPosition⟩ := other
                  simp only [AssemblyError.foldCase, LexicalError.foldCase,
                    AssemblyError.lexical.injEq,
                    LexicalError.mk.injEq] at sameError
                  obtain ⟨sameFault, rfl⟩ := sameError
                  exact .lexical fault otherFault position sameFault

/-! ## Runs -/

/-- The entry label is looked for up to letter case. -/
theorem Assembly.ofTokens_entryLabel {entryLabel : String}
    (sameEntry : Text.foldCase entryLabel = Text.foldCase settings.entryLabel)
    (tokens : List Token) :
    ofTokens instructions { settings with entryLabel } tokens =
      ofTokens instructions settings tokens := by
  have sameBody : entryBody? entryLabel tokens =
      entryBody? settings.entryLabel tokens := by
    rw [entryBody?, entryBody?, sameEntry]
  unfold ofTokens
  simp only [sameBody]
  rfl

theorem Assembly.ofSource_foldCase (source : String) :
    ofSource instructions settings (Text.foldCase source) =
      (ofSource instructions settings source).mapError
        AssemblyError.foldCase := by
  unfold ofSource
  rw [Token.ofSource_foldCase]
  cases Token.ofSource instructions source with
  | error error => rfl
  | ok tokens =>
      simp only [mapError_ok]
      cases ofTokens instructions settings tokens <;> rfl

theorem Assembly.ofSource_entryLabel {entryLabel : String}
    (sameEntry : Text.foldCase entryLabel = Text.foldCase settings.entryLabel)
    (source : String) :
    ofSource instructions { settings with entryLabel } source =
      ofSource instructions settings source := by
  unfold ofSource
  simp only [ofTokens_entryLabel sameEntry]

/-- Two programs that differ in the case of ASCII letters only, with entry
labels that differ in the same way, have one assembly, or the same syntactic
error, or lexical faults of one kind at one position that quote the same texts
up to letter case. -/
theorem assemble_of_foldCase_eq {entryLabel source other : String}
    (sameEntry : Text.foldCase entryLabel = Text.foldCase settings.entryLabel)
    (sameSource : Text.foldCase other = Text.foldCase source) :
    Assembly.EqualUpToCase (assemble settings source)
      (assemble { settings with entryLabel } other) := by
  apply Assembly.equalUpToCase_of_mapError_eq
  calc
    (assemble settings source).mapError AssemblyError.foldCase =
        assemble settings (Text.foldCase source) :=
      (Assembly.ofSource_foldCase source).symm
    _ = assemble settings (Text.foldCase other) := by rw [sameSource]
    _ = (assemble settings other).mapError AssemblyError.foldCase :=
      Assembly.ofSource_foldCase other
    _ = (assemble { settings with entryLabel } other).mapError
          AssemblyError.foldCase :=
      congrArg _ (Assembly.ofSource_entryLabel sameEntry other).symm

/-! ### A number with a foreign digit -/

namespace ForeignDigit

def source : String :=
  "Main: addi $t0, $T1, 0X1fG # no digit"

def other : String :=
  "maIN: ADDI $T0, $t1, 0x1Fg # No Digit"

theorem failed : assemble {} source =
    .error (.lexical ⟨.invalidIntegerCharacter "0X1f" 'G', ⟨1, 22⟩⟩) := by
  decide +kernel

/-- The fault in the other text is of the same kind at the same position. -/
theorem exists_fault :
    ∃ fault, assemble { entryLabel := "MAIN" } other =
        .error (.lexical ⟨fault, ⟨1, 22⟩⟩) ∧
      fault.foldCase = .invalidIntegerCharacter "0x1f" 'g' := by
  have agrees : Assembly.EqualUpToCase (assemble {} source)
      (assemble { entryLabel := "MAIN" } other) :=
    assemble_of_foldCase_eq (by decide +kernel) (by decide +kernel)
  rw [failed] at agrees
  generalize assemble { entryLabel := "MAIN" } other = result at agrees
  cases agrees with
  | lexical fault otherFault position sameFault =>
      refine ⟨otherFault, rfl, sameFault.symm.trans ?_⟩
      decide +kernel

end ForeignDigit

end MipsAssembler
