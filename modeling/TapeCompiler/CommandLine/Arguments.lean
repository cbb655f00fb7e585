import TapeCompiler.Text.Quoted
/-!
# Command line arguments

The command takes one source file and a number of switches, two of which have a value. A value
follows its switch, or is attached to it: behind an equals sign, or behind a switch of one letter
directly. Switches of one letter may be run together, and longer ones may be cut short as long as
one spelling alone goes on from what is left. Behind two dashes no argument is a switch; two dashes
attached to a switch leave it without a value.

Arguments are first sorted into `Word`s, each by itself; then the words are taken from left to
right. A request for help is not among the requests that are kept here.
-/
namespace TapeCompiler.CommandLine

open TapeCompiler.Text

inductive Switch where
  | output
  | assembly
  | emitListing
  | annotate
  | run
  | input
  | verbose
  deriving DecidableEq, Repr

namespace Switch

def all : List Switch := [output, assembly, emitListing, annotate, run, input, verbose]

/-- How a switch may be written (`build_parser`). -/
def spellings : Switch → List String
  | output => ["-o", "--output"]
  | assembly => ["--asm"]
  | emitListing => ["--emit-asm"]
  | annotate => ["--annotate"]
  | run => ["--run"]
  | input => ["--input"]
  | verbose => ["--verbose", "-v"]

/-- Whether the switch has a value. -/
def takesValue : Switch → Bool
  | output | input => true
  | _ => false

/-- How messages name the switch. -/
def label (s : Switch) : String := "/".intercalate s.spellings

def ofSpelling? (spelling : String) : Option Switch := all.find? fun s => spelling ∈ s.spellings

end Switch

/-! ## Words -/

/-- An argument by itself. -/
inductive Word where
  /-- The source file or the value of a switch. -/
  | plain (text : String)
  /-- Two dashes. -/
  | separator
  | switch (s : Switch)
  /-- A switch with its value attached, none when the value is no value. -/
  | valued (s : Switch) (value : Option String)
  /-- A switch that has no value, with one attached. -/
  | misvalued (s : Switch) (value : String)
  | unknownSwitch (text : String)
  deriving DecidableEq, Repr

/-- The value that an attached text is. Two dashes are no value at all. -/
def attachedValue (text : List Char) : Option String :=
  if text = ['-', '-'] then none else some (String.ofList text)

/-- A switch of one letter with text directly behind it: its value, or more such switches. -/
def attachShort (s : Switch) : List Char → List Word
  | [] => [.switch s]
  | c :: rest =>
    if s.takesValue then [.valued s (attachedValue (c :: rest))]
    else
      match Switch.ofSpelling? (String.ofList ['-', c]) with
      | some next => .switch s :: attachShort next rest
      | none => [.misvalued s (String.ofList (c :: rest))]

/-- A switch with text behind an equals sign. Behind one letter without a value the sign might as
well not be there, unless it is the end. -/
def attachEquals (s : Switch) (short : Bool) (value : List Char) : List Word :=
  if s.takesValue then [.valued s (attachedValue value)]
  else if short && !value.isEmpty then attachShort s value
  else [.misvalued s (String.ofList value)]

/-- Whether a text is a negative number, which is no switch. -/
def isNegativeNumber (text : List Char) : Bool :=
  match withoutFinalLineFeed text with
  | '-' :: body =>
    isDecimalRun body ||
      match body.splitOn '.' with
      | [whole, fraction] => whole.all isDecimalDigit && isDecimalRun fraction
      | _ => false
  | _ => false

/-- Whether a text that begins with a dash begins with one dash only. -/
def isShort (text : List Char) : Bool := text.tail.head? ≠ some '-'

/-- A text that is no switch: it is plain if it is a number or has a space in it. -/
def otherWord (text : List Char) : Word :=
  if isNegativeNumber text || ' ' ∈ text then .plain (String.ofList text)
  else .unknownSwitch (String.ofList text)

/-- The switch before the first equals sign, and the text behind the sign. -/
def splitEquals? (text : List Char) : Option (Switch × List Char) :=
  let spelling := text.takeWhile (· ≠ '=')
  (Switch.ofSpelling? (String.ofList spelling)).map fun s => (s, text.drop (spelling.length + 1))

/-- The switch of one letter at the beginning, and the text behind it. -/
def splitShort? (text : List Char) : Option (Switch × List Char) :=
  (Switch.ofSpelling? (String.ofList (text.take 2))).map fun s => (s, text.drop 2)

/-- The spellings of two dashes that go on from a text. The one that asks for help counts too. -/
def completions (text : List Char) : List String :=
  ("--help" :: Switch.all.flatMap Switch.spellings).filter fun spelling =>
    text.isPrefixOf spelling.toList

/-- A switch that was cut short, with its value if there is an equals sign. -/
def completedWords (s : Switch) (text : List Char) : List Word :=
  match text.dropWhile (· ≠ '=') with
  | [] => [.switch s]
  | _ :: value => attachEquals s false value

/-- Why arguments are not a request. -/
inductive UsageError where
  | ambiguous (argument : String) (spellings : List String)
  | missingValue (s : Switch)
  | unwantedValue (s : Switch) (value : String)
  | missingSource
  | unrecognized (arguments : List String)
  /-- A program that is run has no other result than its output. -/
  | runConflict
  deriving DecidableEq, Repr

def UsageError.message : UsageError → String
  | ambiguous argument spellings =>
    "ambiguous option: " ++ argument ++ " could match " ++ ", ".intercalate spellings
  | missingValue s => "argument " ++ s.label ++ ": expected one argument"
  | unwantedValue s value =>
    "argument " ++ s.label ++ ": ignored explicit argument " ++ quote value
  | missingSource => "the following arguments are required: source"
  | unrecognized arguments => "unrecognized arguments: " ++ " ".intercalate arguments
  | runConflict => "--run cannot be combined with -o/--output or --emit-asm"

/-- The words of a text of two dashes that is no spelling of a switch. -/
def completeWords (text : List Char) : Except UsageError (List Word) :=
  match completions (text.takeWhile (· ≠ '=')) with
  | [] => .ok [otherWord text]
  | [spelling] =>
    match Switch.ofSpelling? spelling with
    | some s => .ok (completedWords s text)
    | none => .ok [otherWord text]
  | spellings => .error (.ambiguous (String.ofList text) spellings)

/-- The words of an argument before the separator. -/
def wordsOf (argument : String) : Except UsageError (List Word) :=
  let text := argument.toList
  if text.head? ≠ some '-' ∨ text = ['-'] then .ok [.plain argument]
  else match Switch.ofSpelling? argument, splitEquals? text, splitShort? text with
    | some s, _, _ => .ok [.switch s]
    | none, some (s, value), _ => .ok (attachEquals s (isShort text) value)
    | none, none, some (s, value) => .ok (attachShort s value)
    | none, none, none =>
      if isShort text then .ok [otherWord text] else completeWords text

/-- The words of all arguments. -/
def sortArguments : List String → Except UsageError (List Word)
  | [] => .ok []
  | argument :: rest =>
    if argument = "--" then .ok (.separator :: rest.map .plain)
    else return (← wordsOf argument) ++ (← sortArguments rest)

/-! ## Requests -/

/-- What the command is asked to do. -/
structure Request where
  source : String
  /-- The file for the result, empty when it goes to the standard output. -/
  output : String
  assembly : Bool
  emitListing : Bool
  annotate : Bool
  run : Bool
  /-- The input of the program that is run, none when it was given without a value. -/
  input : Option String
  verbose : Bool
  deriving DecidableEq, Repr

/-- The words taken so far: the request without its source, the source if it was there, and what
could not be used. -/
structure Taken where
  request : Request
  source : Option String
  unused : List String
  deriving DecidableEq, Repr

namespace Taken

def start : Taken := ⟨⟨"", "", false, false, false, false, some "", false⟩, none, []⟩

/-- Sets a switch. The value matters to those switches alone that have one. -/
def set (taken : Taken) (s : Switch) (value : Option String) : Taken :=
  { taken with request :=
      match s with
      | .output => { taken.request with output := value.getD "" }
      | .input => { taken.request with input := value }
      | .assembly => { taken.request with assembly := true }
      | .emitListing => { taken.request with emitListing := true }
      | .annotate => { taken.request with annotate := true }
      | .run => { taken.request with run := true }
      | .verbose => { taken.request with verbose := true } }

def leave (taken : Taken) (argument : String) : Taken :=
  { taken with unused := taken.unused ++ [argument] }

end Taken

/-- Takes words from left to right. A separator is used up by the source beside it. -/
def takeWords (taken : Taken) : List Word → Except UsageError Taken
  | [] => .ok taken
  | .switch s :: rest =>
    if s.takesValue then
      match rest with
      | .plain value :: rest => takeWords (taken.set s (some value)) rest
      | _ => .error (.missingValue s)
    else takeWords (taken.set s none) rest
  | .valued s value :: rest => takeWords (taken.set s value) rest
  | .misvalued s value :: _ => .error (.unwantedValue s value)
  | .unknownSwitch text :: rest => takeWords (taken.leave text) rest
  | .plain text :: rest =>
    match taken.source, rest with
    | none, .separator :: rest => takeWords { taken with source := some text } rest
    | none, rest => takeWords { taken with source := some text } rest
    | some _, rest => takeWords (taken.leave text) rest
  | .separator :: rest =>
    match taken.source, rest with
    | none, .plain text :: rest => takeWords { taken with source := some text } rest
    | _, rest => takeWords (taken.leave "--") rest

/-- The request that words make up. -/
def Taken.request? (taken : Taken) : Except UsageError Request :=
  match taken.source with
  | none => .error .missingSource
  | some source =>
    if !taken.unused.isEmpty then .error (.unrecognized taken.unused)
    else if taken.request.run && (!taken.request.output.isEmpty || taken.request.emitListing) then
      .error .runConflict
    else .ok { taken.request with source := source }

/-- Reads the arguments of the command. -/
def readArguments (arguments : List String) : Except UsageError Request := do
  (← takeWords .start (← sortArguments arguments)).request?

end TapeCompiler.CommandLine
