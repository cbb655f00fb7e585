import TapeCompiler.Asm.Instr
import TapeCompiler.Diagnostic.Basic
import TapeCompiler.Text.Quoted
/-!
# Faults of instructions

What can be wrong with an instruction, from the reading of its line to its encoding. All faults but
one are reported as diagnostics at the line of the instruction.
-/
namespace TapeCompiler.Asm

open TapeCompiler.Text

inductive Fault where
  | unknownOperation (word : String)
  /-- A definition that is not a name and a value. -/
  | defineOperands (count : Nat)
  | defineName (text : String)
  /-- A copy without source or without target. -/
  | copyOperands
  | atMostOneOperand (mnemonic : Mnemonic) (count : Nat)
  | oneOperand (mnemonic : Mnemonic) (count : Nat)
  | twoOperands (mnemonic : Mnemonic) (count : Nat)
  /-- An operand that is neither a name nor a number. -/
  | invalidOperand (text : String)
  /-- A number with too many digits to be read. -/
  | operandTooLarge (text : String)
  /-- A definition by a name that is not defined yet. -/
  | unresolvedValue (name : String) (instr : Instr Ref)
  | unresolvedOperand (name : String) (instr : Instr Ref)
  | negativeOperand (n : Int) (instr : Instr Ref)
  /-- A number that counts more repetitions than any text has characters. -/
  | countTooLarge
  deriving DecidableEq, Repr

namespace Fault

def malformed (word detail : String) : String := "Malformed '" ++ word ++ "': " ++ detail

def text : Fault → String
  | unknownOperation word => "Unknown operation: " ++ quote word
  | defineOperands count =>
    malformed "#define" ("expected a name and a value, got " ++ toString count ++ " operand(s)")
  | defineName text => malformed "#define" ("invalid name " ++ quote text)
  | copyOperands =>
    malformed Mnemonic.copy.word "expected a source and at least one destination"
  | atMostOneOperand mnemonic count =>
    malformed mnemonic.word ("expected at most 1 operand, got " ++ toString count)
  | oneOperand mnemonic count =>
    malformed mnemonic.word ("expected 1 operand, got " ++ toString count)
  | twoOperands mnemonic count =>
    malformed mnemonic.word ("expected 2 operands, got " ++ toString count)
  | invalidOperand text => "Invalid operand: " ++ quote text
  | operandTooLarge text =>
    "Operand too large: " ++ String.ofList (text.toList.take 20) ++ "... ("
      ++ toString text.length ++ " digits)"
  | unresolvedValue name instr =>
    "Unresolved value " ++ quote name ++ " in '" ++ instr.line ++ "'"
  | unresolvedOperand name instr =>
    "Unresolved operand " ++ quote name ++ " in '" ++ instr.line ++ "'"
  | negativeOperand n instr =>
    "Negative operand " ++ toString n ++ " in '" ++ instr.line ++ "'"
  | countTooLarge => "cannot fit 'int' into an index-sized integer"

/-- The category under which a fault is reported, none when it is not. -/
def category? : Fault → Option Category
  | unknownOperation _ => some .unknownOperation
  | countTooLarge => none
  | _ => some .malformedInstruction

end Fault

/-- A fault and the line of its instruction. -/
structure Error where
  line : Int
  fault : Fault
  deriving DecidableEq, Repr

/-- The diagnostic of an error (`make_assemble_error`). Instructions that were not read from text
have no source. -/
def Error.diagnostic? (source : Option String) (e : Error) : Option Diagnostic :=
  e.fault.category?.map fun category => .inText category e.fault.text source e.line none

end TapeCompiler.Asm
