import TapeCompiler.CommandLine.Respond
/-!
# The command

Reads the source file, works out the course of the call and carries it out.
-/
namespace TapeCompiler.CommandLine

/-- Fulfils a request with as many steps as it takes. -/
partial def finishEventually (request : Request) (compiled : Compiled) (steps : Nat) : IO Course :=
  match finish steps request compiled with
  | some course => return course
  | none => finishEventually request compiled (4 * steps)

/-- Carries out a course; `elapsed` tells how long each noted stage took. -/
def carryOut (elapsed : Note → String) (course : Course) : IO UInt32 := do
  for action in course.actions do
    match action with
    | .note note => IO.eprintln (note.text (elapsed note))
    | .print bytes =>
      let output ← IO.getStdout
      output.write bytes.toByteArray
      output.flush
    | .write path contents => IO.FS.writeBinFile path contents.toByteArray
  match course.ending with
  | .ok code => return code
  | .error escape =>
    IO.eprintln escape.message
    return 1

/-- A number of nanoseconds in milliseconds, with two places. -/
def milliseconds (nanoseconds : Nat) : String :=
  let hundredths := nanoseconds / 10000
  toString (hundredths / 100) ++ "." ++ toString (hundredths / 10 % 10)
    ++ toString (hundredths % 10)

def fulfilRequest (request : Request) (contents : List UInt8) : IO UInt32 := do
  let start ← IO.monoNanosNow
  match build request contents with
  | .error course => carryOut (fun _ => "") course
  | .ok compiled =>
    let built ← IO.monoNanosNow
    let course ← finishEventually request compiled 1000000
    let finished ← IO.monoNanosNow
    let elapsed (note : Note) : String :=
      match note with
      | .executionTook => milliseconds (finished - built)
      | _ => milliseconds (built - start)
    carryOut elapsed course

/-- The contents of the source file, none when there is no such file. -/
def readSource (path : String) : IO (Option (List UInt8)) := do
  try
    return some (← IO.FS.readBinFile path).toList
  catch
    | .noFileOrDirectory .. => return none
    | error => throw error

end TapeCompiler.CommandLine

open TapeCompiler.CommandLine in
def main (arguments : List String) : IO UInt32 := do
  match readArguments arguments with
  | .error error => carryOut (fun _ => "") (.usage error)
  | .ok request =>
    match ← readSource request.source with
    | none => carryOut (fun _ => "") (.unread request .missing)
    | some contents => fulfilRequest request contents
