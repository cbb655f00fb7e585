import TapeCompiler.Asm.Encode
import TapeCompiler.Failure
import TapeCompiler.Lowering.Generate
import TapeCompiler.Text.Encoding
/-!
# Compiling

A text is a program in the tape language or, when asked for, instructions that only have to be
assembled. A program goes through the text of its instructions, so the text that is given out is
the one that was assembled.
-/
namespace TapeCompiler

/-- What may be asked for (`CompileOptions`). -/
structure Options where
  /-- Comment the instructions with the statements they come from. -/
  annotate : Bool
  /-- The text holds instructions. -/
  assembly : Bool
  deriving DecidableEq, Repr

/-- What a text is compiled to (`CompileResult`). -/
structure Compiled where
  code : List Op
  /-- The text of the instructions. -/
  listing : String
  /-- Where the variables are; empty for a text of instructions. -/
  layout : Layout
  deriving Repr

/-- The tokens of a source text (`tokenize`). -/
def tokenize (source : String) : Except Failure (List Token) :=
  (Scan.tokens source).mapError (.scan source)

/-- The program that tokens stand for; `source` is what errors quote (`parse_tokens`). -/
def parseTokens (source : String) (tokens : List Token) : Except Failure Block :=
  (Grammar.parseTokens tokens).mapError (.parse source)

/-- The program in a source text (`parse`). -/
def parse (source : String) : Except Failure Block := do
  parseTokens source (← tokenize source)

/-- Assembles a text of instructions (`assemble`). -/
def assembleText (source : String) : Except Failure (List Op) :=
  (Asm.assemble source).mapError (.assemble (some source))

/-- The instructions of a program (`code_gen`). -/
def generateCode (annotate : Bool) (program : Block) : Except Failure Listing :=
  (generate annotate program).mapError .reservedName

/-- Assembles a text of instructions and gives it out as its own listing (`assemble_string`). -/
def assembleOnly (source : String) : Except Failure Compiled := do
  .ok ⟨← assembleText source, source, .empty⟩

/-- Compiles a text (`compile_string`). -/
def compile (options : Options) (source : String) : Except Failure Compiled :=
  if options.assembly then assembleOnly source
  else do
    let listing ← generateCode options.annotate (← parse source)
    .ok ⟨← assembleText listing.text, listing.text, listing.layout⟩

/-! ## Files -/

/-- Why a file cannot be compiled. -/
inductive FileFailure where
  | undecodable (error : Text.DecodeError)
  | compile (failure : Failure)
  deriving DecidableEq, Repr

/-- Compiles the contents of a file (`compile_file`). -/
def compileFile (options : Options) (encoding : Text.Encoding) (bytes : List UInt8) :
    Except FileFailure Compiled := do
  let source ← (encoding.readText bytes).mapError .undecodable
  (compile options source).mapError .compile

end TapeCompiler
