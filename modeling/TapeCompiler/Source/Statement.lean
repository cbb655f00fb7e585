/-!
# Statements

The tree of a program. A block is a list of statements. A condition is a list of comparisons that
must all hold; the empty condition holds. Trees may also be made by hand, so names are any strings
and values any integers.
-/
namespace TapeCompiler

/-- The two questions that a comparison may ask. -/
inductive Test where
  | equal
  | notEqual
  deriving DecidableEq, Repr

def Test.sign : Test → String
  | equal => "=="
  | notEqual => "!="

/-- A variable set against a number. -/
structure Comparison where
  name : String
  test : Test
  value : Int
  deriving DecidableEq, Repr

def Comparison.text (c : Comparison) : String :=
  c.name ++ " " ++ c.test.sign ++ " " ++ toString c.value

abbrev Condition := List Comparison

def Condition.text (condition : Condition) : String :=
  " && ".intercalate (condition.map Comparison.text)

inductive Direction where
  | right
  | left
  deriving DecidableEq, Repr

def Direction.word : Direction → String
  | right => "move_right"
  | left => "move_left"

inductive Statement where
  | input (name : String)
  | output (name : String)
  | assign (name : String) (value : Int)
  | move (direction : Direction)
  | loop (condition : Condition) (body : List Statement)
  | branch (condition : Condition) (body : List Statement)
  | branchElse (condition : Condition) (body otherwise : List Statement)
  deriving Repr

abbrev Block := List Statement

/-- The text of a statement without the blocks inside it. -/
def Statement.headline : Statement → String
  | input name => "input ( " ++ name ++ " )"
  | output name => "output ( " ++ name ++ " )"
  | assign name value => name ++ " = " ++ toString value
  | move direction => direction.word
  | loop condition _ => "while " ++ condition.text
  | branch condition _ => "if " ++ condition.text
  | branchElse condition _ _ => "if " ++ condition.text

end TapeCompiler
