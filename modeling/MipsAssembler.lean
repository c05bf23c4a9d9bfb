import MipsAssembler.CommandLine.Session
import MipsAssembler.Main
import MipsAssembler.Proofs.Program.BlockProgram
import MipsAssembler.Proofs.Program.Disassembly
import MipsAssembler.Proofs.Program.AddressDrift
import MipsAssembler.Proofs.Program.Relocation
import MipsAssembler.Proofs.Program.EntryLabel
import MipsAssembler.Proofs.Program.LabelScope
import MipsAssembler.Proofs.Program.AppendedCode
import MipsAssembler.Proofs.Program.LetterCase
import MipsAssembler.Proofs.Numeral.PaddedDigits
import MipsAssembler.Proofs.Json.Lexeme
import MipsAssembler.Proofs.Json.RoundTrip
import MipsAssembler.Proofs.Program.AssemblyJson
import MipsAssembler.Proofs.CommandLine.FileSystem
import MipsAssembler.Proofs.CommandLine.Stages
import MipsAssembler.Proofs.Program.Rendering
import MipsAssembler.Proofs.CommandLine.Output
import MipsAssembler.Proofs.Program.ViablePrefix
import MipsAssembler.Proofs.Source.LexicalFault
import MipsAssembler.Proofs.CommandLine.RunEffect
import MipsAssembler.Proofs.Machine.Packing
import MipsAssembler.Proofs.Program.LastDefinition
import MipsAssembler.Proofs.Program.IntegerOperand
import MipsAssembler.Proofs.Program.DefinitionHistory
import MipsAssembler.Proofs.CommandLine.AddressText
