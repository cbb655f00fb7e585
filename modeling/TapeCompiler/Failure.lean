import TapeCompiler.Asm.Fault
import TapeCompiler.Source.Grammar
/-!
# Failures

Why a text cannot be compiled. A failure holds its cause and the text that it concerns, which may
be the source or the instructions generated from it. Most failures are reported to the user; the
few that are not concern numbers too large to be handled at all.
-/
namespace TapeCompiler

inductive Failure where
  | scan (source : String) (error : Scan.Error)
  | parse (source : String) (error : Grammar.Error)
  | reservedName (name : String)
  /-- Instructions that were not read from text have no source. -/
  | assemble (source : Option String) (error : Asm.Error)
  deriving DecidableEq, Repr

namespace Failure

/-- The diagnostic of a failure that has a place. -/
def diagnostic? : Failure → Option Diagnostic
  | scan source error => error.diagnostic? source
  | parse source error => error.diagnostic? source
  | reservedName _ => none
  | assemble source error => error.diagnostic? source

/-- The message about a reserved name (`make_reserved_name_error`). -/
def reservedNameMessage (name : String) : String :=
  "ReservedNameError: '" ++ name ++ "' is reserved for compiler-internal flags"

/-- The whole message of a failure. -/
def message (failure : Failure) : String :=
  match failure.diagnostic? with
  | some diagnostic => diagnostic.message
  | none =>
    match failure with
    | scan _ error => error.fault.text
    | parse _ error => error.text
    | reservedName name => reservedNameMessage name
    | assemble _ error => error.fault.text

/-- Whether the user is told of the failure (`BFGenError`). -/
def isReported : Failure → Bool
  | reservedName _ => true
  | failure => failure.diagnostic?.isSome

end Failure

end TapeCompiler
