import TapeCompiler.Diagnostic.Excerpt
import TapeCompiler.Diagnostic.Hint
import TapeCompiler.Text.Character
/-!
# Diagnostics

A diagnostic tells the user what is wrong with a text and where. It is shown as a header, the
excerpt around the line when there is a text to quote, and a hint when the wording earns one.
-/
namespace TapeCompiler

/-- What kind of fault a diagnostic reports. -/
inductive Category where
  | lexical
  | parse
  | assemble
  | malformedInstruction
  | unknownOperation
  deriving DecidableEq, Repr

/-- The name that opens the header. -/
def Category.title : Category → String
  | lexical => "LexicalError"
  | parse => "ParseError"
  | assemble => "AssembleError"
  | malformedInstruction => "MalformedInstructionError"
  | unknownOperation => "UnknownOperationError"

def Category.topic : Category → Topic
  | lexical => .lexical
  | parse => .parse
  | assemble | malformedInstruction | unknownOperation => .assemble

/-- A fault at a place. Places may be hand-made, so their numbers are not bounded by the text. -/
structure Diagnostic where
  category : Category
  text : String
  line : Int
  /-- Instructions are located by their line alone. -/
  column : Option Int
  /-- The lines around the place, empty where no text is known. -/
  excerpt : String
  deriving DecidableEq, Repr

namespace Diagnostic

/-- How many lines an excerpt shows on either side. -/
def reach : Int := 2

/-- The diagnostic of a fault in `source`, as the `make_*_error` functions put it together. -/
def inText (category : Category) (text : String) (source : Option String) (line : Int)
    (column : Option Int) : Diagnostic :=
  { category, text, line, column
    excerpt := match source with
      | some source => TapeCompiler.excerpt reach (Text.lines source) line
      | none => "" }

def place (d : Diagnostic) : String :=
  match d.column with
  | some column => "(line " ++ toString d.line ++ ", column " ++ toString column ++ ")"
  | none => "(line " ++ toString d.line ++ ")"

/-- The advice that the bare text earns; neither the header nor the excerpt is looked at. -/
def hint (d : Diagnostic) : Option String := hintFor d.category.topic d.text

/-- The whole message as it is shown. -/
def message (d : Diagnostic) : String :=
  d.category.title ++ ": " ++ d.text ++ " " ++ d.place
    ++ (if d.excerpt.isEmpty then "" else "\n" ++ d.excerpt)
    ++ (match d.hint with
        | some hint => "\nHint: " ++ hint
        | none => "")

end Diagnostic

end TapeCompiler
