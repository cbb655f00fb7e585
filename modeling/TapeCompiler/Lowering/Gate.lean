import TapeCompiler.Asm.Instr
import TapeCompiler.Lowering.InternalName
import TapeCompiler.Source.Statement
/-!
# Gates

The machine can only repeat while a cell is not zero, so code that depends on a condition is put
inside a loop on a flag, and the flag is cleared before the loop closes:

* the flag of `x != n` is `x` less `n`, taken from a copy of `x`;
* the flag of `x == n` starts as one and is cleared by the gate of `x != n`;
* of several comparisons each later one is tested inside the gate of the one before.
-/
namespace TapeCompiler

open TapeCompiler.Asm

/-- Instructions as they are generated: cells by name, counts as numbers. -/
abbrev Code := List (Instr Ref)

def setCell (cell : String) (n : Int) : Instr Ref := .set (.name cell) (.number n)

/-- Puts the difference between a variable and a number into a flag (`compare_into`). The variable
is moved to the scratch cell and the flag, and back from the scratch cell. -/
def differenceInto (flag : String) (c : Comparison) : Code :=
  [setCell flag 0,
   .copy (.name c.name) [.name scratchName, .name flag],
   .copy (.name scratchName) [.name c.name],
   .sub (.name flag) (.number c.value)]

/-- Runs `inner` at most once, if `flag` is not zero. -/
def whenFlag (flag : String) (inner : Code) : Code :=
  .openLoop (.name flag) :: inner ++ [setCell flag 0, .closeLoop (.name flag)]

/-- Runs `inner` if one comparison holds (`generate_not_equal`, `generate_equal`). -/
def gateComparison (depth term : Int) (c : Comparison) (inner : Code) : Code :=
  let difference := (Flag.difference depth term).name
  let equality := (Flag.equality depth term).name
  match c.test with
  | .notEqual => differenceInto difference c ++ whenFlag difference inner
  | .equal =>
    setCell equality 1 :: differenceInto difference c
      ++ whenFlag difference [setCell equality 0] ++ whenFlag equality inner

/-- Runs `inner` if a condition holds, of which the first comparison has number `term`
(`generate_compares`). -/
def gate (depth term : Int) : Condition → Code → Code
  | [], inner => inner
  | c :: rest, inner => gateComparison depth term c (gate depth (term + 1) rest inner)

/-- Runs `body` if a condition holds, and `otherwise` if it does not and there is any
(`generate_if`). -/
def gateBranch (depth : Int) (condition : Condition) (body : Code) : Option Code → Code
  | none => gate depth 0 condition body
  | some otherwise =>
    let untaken := (Flag.untaken depth).name
    setCell untaken 1 :: gate depth 0 condition (body ++ [setCell untaken 0])
      ++ whenFlag untaken otherwise

/-- Runs `body` again and again while a condition holds (`generate_while`). -/
def gateLoop (depth : Int) (condition : Condition) (body : Code) : Code :=
  let again := (Flag.again depth).name
  [setCell again 1, .openLoop (.name again), setCell again 0]
    ++ gate depth 0 condition (body ++ [setCell again 1]) ++ [.closeLoop (.name again)]

end TapeCompiler
