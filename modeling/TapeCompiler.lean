import TapeCompiler.Main
import TapeCompiler.Proofs.Machine.StructuredRuns
import TapeCompiler.Proofs.Machine.InputRead
import TapeCompiler.Proofs.Machine.InBounds
import TapeCompiler.Proofs.Machine.TapeSize
import TapeCompiler.Proofs.Asm.Encoding
import TapeCompiler.Proofs.Asm.Appending
import TapeCompiler.Proofs.Asm.Bracketing
import TapeCompiler.Proofs.Asm.Parking
import TapeCompiler.Proofs.Asm.CopyCode
import TapeCompiler.Proofs.Asm.LatestDefinition
import TapeCompiler.Proofs.Asm.ExpandedText
import TapeCompiler.Proofs.Lowering.Preserves
import TapeCompiler.Proofs.Lowering.Allocation
import TapeCompiler.Proofs.Lowering.ReservedNames
import TapeCompiler.Proofs.Source.Printing
import TapeCompiler.Proofs.Source.Derivation
import TapeCompiler.Proofs.Source.FirstFault
import TapeCompiler.Proofs.Source.FirstMisfit
import TapeCompiler.Proofs.Source.EndOfInput
import TapeCompiler.Proofs.Source.CallLog
import TapeCompiler.Proofs.Correctness
import TapeCompiler.Proofs.Annotation
import TapeCompiler.Proofs.CleanTape
import TapeCompiler.Proofs.Runnable
import TapeCompiler.Proofs.Renaming
import TapeCompiler.Proofs.Located
import TapeCompiler.Proofs.Spacing
import TapeCompiler.Proofs.Reported
import TapeCompiler.Proofs.Gating
import TapeCompiler.Proofs.Hints
import TapeCompiler.Proofs.CommandLine.AllOrNothing
