import TapeCompiler.Text.Character
/-!
# Internal names

Besides the variables of a program the code uses a scratch cell, flags, and the width of a row. The
flags are numbered by the depth of the block that they guard, and by the place of the comparison
where a condition has several. Programs may use none of these names, and no name that could pass
for a flag: its numbers may be written in any decimal digits, and a line feed may follow.
-/
namespace TapeCompiler

open TapeCompiler.Text

/-- The cell through which a variable is copied without being lost. -/
def scratchName : String := "__tmp"

/-- The number of cells in a row. -/
def rowWidthName : String := "__cell_size"

/-- A flag cell. -/
inductive Flag where
  /-- Not zero while a variable differs from the number it is compared with. -/
  | difference (depth term : Int)
  /-- Not zero while they are equal. -/
  | equality (depth term : Int)
  /-- Not zero until the first part of a branch is taken. -/
  | untaken (depth : Int)
  /-- Not zero while a loop goes on. -/
  | again (depth : Int)
  deriving DecidableEq, Repr

/-- The name of a flag (`if_flag`, `eq_flag`, `else_flag`, `while_flag`). -/
def Flag.name : Flag → String
  | difference depth term => "__if_" ++ toString depth ++ "_" ++ toString term
  | equality depth term => "__eq_" ++ toString depth ++ "_" ++ toString term
  | untaken depth => "__else_" ++ toString depth
  | again depth => "__while_" ++ toString depth

/-- Whether a text is two numbers with an underscore between them. -/
def isIndexPair (text : List Char) : Bool :=
  match text.splitOn '_' with
  | [depth, term] => isDecimalRun depth && isDecimalRun term
  | _ => false

/-- Whether a text begins with `stem` and goes on in a way that `tail` accepts. -/
def hasForm (stem : String) (tail : List Char → Bool) (text : List Char) : Bool :=
  stem.toList.isPrefixOf text && tail (text.drop stem.toList.length)

/-- Whether a text has the form of a flag. -/
def isFlagText (text : List Char) : Bool :=
  hasForm "__if_" isIndexPair text || hasForm "__eq_" isIndexPair text
    || hasForm "__else_" isDecimalRun text || hasForm "__while_" isDecimalRun text

/-- Whether a program may not use the name (`is_reserved`). -/
def isReserved (name : String) : Bool :=
  name == scratchName || name == rowWidthName || isFlagText (withoutFinalLineFeed name.toList)

end TapeCompiler
