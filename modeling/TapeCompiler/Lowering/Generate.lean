import TapeCompiler.Lowering.Gate
import TapeCompiler.Lowering.Variables
/-!
# From statements to instructions

A block inside a statement is lowered one level deeper than the statement. The code of a program is
its body behind a header that defines the offset of every cell and the width of a row.
-/
namespace TapeCompiler

open TapeCompiler.Asm

mutual

/-- The code of a statement (`lower_statement`). -/
def lowerStatement (depth : Int) : Statement → Code
  | .input name => [.read (.name name)]
  | .output name => [.write (.name name)]
  | .assign name value => [setCell name value]
  | .move .right => [.right (.name rowWidthName)]
  | .move .left => [.left (.name rowWidthName)]
  | .loop condition body => gateLoop depth condition (lowerBlock (depth + 1) body)
  | .branch condition body => gateBranch depth condition (lowerBlock (depth + 1) body) none
  | .branchElse condition body otherwise =>
    gateBranch depth condition (lowerBlock (depth + 1) body)
      (some (lowerBlock (depth + 1) otherwise))

/-- The code of a block (`lower_block`). -/
def lowerBlock (depth : Int) : Block → Code
  | [] => []
  | statement :: rest => lowerStatement depth statement ++ lowerBlock depth rest

end

theorem lowerBlock_append (depth : Int) (first second : Block) :
    lowerBlock depth (first ++ second) = lowerBlock depth first ++ lowerBlock depth second := by
  induction first with
  | nil => simp [lowerBlock]
  | cons statement rest ih => simp [lowerBlock, ih]

/-- A branch of which the first part goes on with `trailing` after its statements
(`generate_if`). -/
def lowerBranch (depth : Int) (condition : Condition) (body : Block) (otherwise : Option Block)
    (trailing : Code) : Code :=
  gateBranch depth condition (lowerBlock (depth + 1) body ++ trailing)
    (otherwise.map (lowerBlock (depth + 1)))

/-- The body of a program. When it is annotated, a comment with its headline stands before each
statement of the outermost block. -/
def lowerProgram (annotate : Bool) (program : Block) : Code :=
  program.flatMap fun statement =>
    (if annotate then [.comment statement.headline] else []) ++ lowerStatement 0 statement

theorem lowerProgram_false (program : Block) :
    lowerProgram false program = lowerBlock 0 program := by
  induction program with
  | nil => simp [lowerProgram, lowerBlock]
  | cons statement rest ih => simpa [lowerProgram, lowerBlock] using ih

/-- Generated instructions, and the layout that they define (`GeneratedProgram`). -/
structure Listing where
  layout : Layout
  code : Code
  deriving Repr

/-- The definitions that go with a layout. -/
def Layout.header (layout : Layout) : Code :=
  layout.symbols.map (fun (name, offset) => .define name (.number offset))
    ++ [.define rowWidthName (.number layout.width)]

/-- The code of a whole program, or the reserved name for which it is refused (`code_gen`). -/
def generate (annotate : Bool) (program : Block) : Except String Listing := do
  let names ← variablesOf program
  let body := lowerProgram annotate program
  let layout := Layout.ofCode names body
  .ok ⟨layout, layout.header ++ body⟩

def Listing.text (listing : Listing) : String := render listing.code

end TapeCompiler
