import TapeCompiler.Lowering.InternalName
import TapeCompiler.Lowering.Layout
import TapeCompiler.Source.Statement
/-!
# The variables of a program

Names are collected in the order of the text, conditions before blocks. A program is refused for
the first of its names that is reserved.
-/
namespace TapeCompiler

/-- All occurrences of variables in a condition (`_condition_variables`). -/
def Condition.names (condition : Condition) : List String := condition.map Comparison.name

mutual

/-- All occurrences of variables in a statement (`_statement_variables`). -/
def Statement.names : Statement → List String
  | .input name | .output name | .assign name _ => [name]
  | .move _ => []
  | .loop condition body => condition.names ++ namesOf body
  | .branch condition body => condition.names ++ namesOf body
  | .branchElse condition body otherwise =>
    condition.names ++ namesOf body ++ namesOf otherwise

/-- All occurrences of variables in a block. -/
def namesOf : Block → List String
  | [] => []
  | statement :: rest => statement.names ++ namesOf rest

end

/-- The first reserved name in a program. -/
def reservedName? (program : Block) : Option String := (namesOf program).find? isReserved

/-- The variables of a program, each once, in the order of their first occurrences; or the first
name that it may not use (`list_variables`). -/
def variablesOf (program : Block) : Except String (List String) :=
  match reservedName? program with
  | some name => .error name
  | none => .ok (Layout.ofNames (namesOf program)).names

end TapeCompiler
