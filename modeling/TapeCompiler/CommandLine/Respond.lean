import TapeCompiler.CommandLine.Arguments
import TapeCompiler.CommandLine.Folder
import TapeCompiler.Compile
import TapeCompiler.Machine.Run
/-!
# Calls of the command

What a call of the command does is put down as a course: the actions that can be seen outside, in
their order, and how the call ends. A course is then carried out on a state, which is the files and
what has been printed and noted so far. An action that cannot be done ends the call where it stands,
and what was done before has been done (`State.perform`).
-/
namespace TapeCompiler.CommandLine

/-- A line for the error output. How long something took is filled in by whoever measured it. -/
inductive Note where
  | compilationTook
  | executionTook
  | line (text : String)
  deriving DecidableEq, Repr

/-- The text of a note, given the number of milliseconds. -/
def Note.text (elapsed : String) : Note → String
  | compilationTook => "Compilation took " ++ elapsed ++ " ms"
  | executionTook => "Execution took " ++ elapsed ++ " ms"
  | line text => text

/-- Something that a call does. -/
inductive Action where
  | note (note : Note)
  /-- Bytes for the standard output. -/
  | print (bytes : List UInt8)
  /-- A file is made, or gets new contents. -/
  | write (path : String) (contents : List UInt8)
  deriving DecidableEq, Repr

/-- A failure that the command does not handle. -/
inductive Escape where
  | undecodable (error : Text.DecodeError)
  | compile (failure : Failure)
  | machine (failure : Machine.Failure)
  /-- A program is to be run on an input that was given without a value. -/
  | noInput
  | file (problem : PathProblem) (path : String)
  deriving DecidableEq, Repr

def Escape.message : Escape → String
  | undecodable error => error.message
  | compile failure => failure.message
  | machine failure => failure.message
  | noInput => "'list' object has no attribute 'encode'"
  | file problem path => problem.message path

/-! ## Courses -/

/-- What a call does, and the exit code that it ends with when all of it has been done. -/
structure Course where
  actions : List Action
  ending : Except Escape UInt32

namespace Course

def escape (e : Escape) : Course := ⟨[], .error e⟩

/-- The call ends with a message and an exit code. -/
def refuse (code : UInt32) (message : String) : Course := ⟨[.note (.line message)], .ok code⟩

/-- The course of arguments that are not a request. -/
def usage (error : UsageError) : Course := refuse 2 ("bfgen: error: " ++ error.message)

/-- The course of a request whose source file cannot be read. -/
def unread (request : Request) : PathProblem → Course
  | .missing => refuse 1 ("Couldn't find file: " ++ request.source)
  | problem => escape (.file problem request.source)

/-- What is noted comes first. -/
def after (notes : List Note) (course : Course) : Course :=
  { course with actions := notes.map .note ++ course.actions }

end Course

/-- Compiles the contents of the source file. -/
def build (request : Request) (contents : List UInt8) : Except Course Compiled :=
  (compileFile ⟨request.annotate, request.assembly⟩ .utf8 contents).mapError fun
    | .undecodable error => .escape (.undecodable error)
    | .compile failure =>
      if failure.isReported then .refuse 1 failure.message else .escape (.compile failure)

/-- What is noted about a compilation. -/
def buildNotes (request : Request) (compiled : Compiled) : List Note :=
  if !request.verbose then []
  else
    [.compilationTook]
      ++ (if compiled.layout.width = 0 then []
          else [.line ("Row width: " ++ toString compiled.layout.width ++ " cells")])
      ++ [.line ("Program size: " ++ toString compiled.code.length ++ " instructions")]

/-- Runs a compiled program on an input for at most `steps` steps. Its output is printed when it has
ended. -/
def runCourse (steps : Nat) (request : Request) (compiled : Compiled) (input : String) :
    Option Course :=
  match Machine.run steps compiled.code (Text.utf8Bytes input) Machine.defaultTapeSize with
  | none => none
  | some (.ok outcome) =>
    let took : List Action := if request.verbose then [.note .executionTook] else []
    some ⟨.print outcome.output.toList :: took, .ok 0⟩
  | some (.error (.fault fault)) => some (.escape (.machine (.fault fault)))
  | some (.error failure) => some (.refuse 1 ("Error: " ++ failure.message))

/-- Gives out a compiled program, or its instructions. -/
def deliveryCourse (request : Request) (compiled : Compiled) : Course :=
  let text := if request.emitListing then compiled.listing else codeText compiled.code
  let bytes := Text.utf8Bytes text
  ⟨[if request.output.isEmpty then .print bytes else .write request.output bytes], .ok 0⟩

/-- Fulfils a request whose source has been compiled. -/
def finish (steps : Nat) (request : Request) (compiled : Compiled) : Option Course :=
  let course? :=
    if !request.run then some (deliveryCourse request compiled)
    else match request.input with
      | some input => runCourse steps request compiled input
      | none => some (.escape .noInput)
  course?.map (.after (buildNotes request compiled))

/-- Fulfils a request, given the contents of the source file. -/
def fulfil (steps : Nat) (request : Request) (contents : List UInt8) : Option Course :=
  match build request contents with
  | .error course => some course
  | .ok compiled => finish steps request compiled

/-- The course of a request, if the program that is run ends within `steps` steps. -/
def courseFor (steps : Nat) (files : Folder) (request : Request) : Option Course :=
  match files.read request.source with
  | .error problem => some (.unread request problem)
  | .ok contents => fulfil steps request contents

/-- The course of a call (`main`). -/
def courseOf (steps : Nat) (files : Folder) (arguments : List String) : Option Course :=
  match readArguments arguments with
  | .error error => some (.usage error)
  | .ok request => courseFor steps files request

/-! ## States -/

/-- The files, and what a call has printed and noted. -/
structure State where
  files : Folder
  printed : List UInt8
  notes : List Note
  deriving DecidableEq, Repr

namespace State

/-- Nothing has been printed or noted. -/
def start (files : Folder) : State := ⟨files, [], []⟩

/-- Does one thing, unless it cannot be done. -/
def act (state : State) : Action → Except Escape State
  | .note note => .ok { state with notes := state.notes ++ [note] }
  | .print bytes => .ok { state with printed := state.printed ++ bytes }
  | .write path contents =>
    match state.files.placeFor path with
    | .error problem => .error (.file problem path)
    | .ok place => .ok { state with files := state.files.store place contents }

/-- Does things in their order, up to one that cannot be done. -/
def perform (state : State) : List Action → State × Option Escape
  | [] => (state, none)
  | action :: rest =>
    match state.act action with
    | .error escape => (state, some escape)
    | .ok next => next.perform rest

end State

/-- Carries out a course. -/
def Course.carryOut (course : Course) (state : State) : State × Except Escape UInt32 :=
  match state.perform course.actions with
  | (state, some escape) => (state, .error escape)
  | (state, none) => (state, course.ending)

/-- The state after a call and how the call ends, if the program that is run ends within `steps`
steps. -/
def call (steps : Nat) (files : Folder) (arguments : List String) :
    Option (State × Except Escape UInt32) :=
  (courseOf steps files arguments).map (·.carryOut (.start files))

/-! ## Responses -/

/-- What is seen of a call that comes to its exit code. -/
structure Response where
  exitCode : UInt32
  standardOutput : List UInt8
  notes : List Note
  files : Folder
  deriving DecidableEq, Repr

/-- The response to arguments in a folder, if the program that is run ends within `steps` steps. -/
def respond (steps : Nat) (folder : Folder) (arguments : List String) :
    Option (Except Escape Response) :=
  (call steps folder arguments).map fun (state, ending) =>
    ending.map fun code => ⟨code, state.printed, state.notes, state.files⟩

/-- The file that was added to a folder or changed in it. -/
def Response.change? (folder : Folder) (response : Response) : Option (Path × List UInt8) :=
  response.files.find? fun (path, _) => response.files.lookup path ≠ folder.lookup path

end TapeCompiler.CommandLine
