import TapeCompiler.Asm.Fault
import TapeCompiler.Text.Character
import TapeCompiler.Text.Numeral
/-!
# Reading instructions

A line is taken word by word. A line without words and a line that begins with a number sign hold
no instruction, definitions apart. The operands are read from left to right before they are
counted.
-/
namespace TapeCompiler.Asm

open TapeCompiler.Text

/-- The operand that a word is (`_parse_ref`). -/
def readRef (word : List Char) : Except Fault Ref :=
  if isDigits word then
    match readDigits word with
    | .ok n => .ok (.number n)
    | .error _ => .error (.operandTooLarge (String.ofList word))
  else if isName word then .ok (.name (String.ofList word))
  else .error (.invalidOperand (String.ofList word))

/-- The instruction of a mnemonic with its operands. A loop bracket without operand means the first
cell of the row. -/
def Mnemonic.apply : Mnemonic → List Ref → Except Fault (Instr Ref)
  | add, [cell, amount] => .ok (.add cell amount)
  | sub, [cell, amount] => .ok (.sub cell amount)
  | set, [cell, amount] => .ok (.set cell amount)
  | right, [count] => .ok (.right count)
  | left, [count] => .ok (.left count)
  | openLoop, [] => .ok (.openLoop (.number 0))
  | openLoop, [cell] => .ok (.openLoop cell)
  | closeLoop, [] => .ok (.closeLoop (.number 0))
  | closeLoop, [cell] => .ok (.closeLoop cell)
  | copy, source :: target :: targets => .ok (.copy source (target :: targets))
  | read, [cell] => .ok (.read cell)
  | write, [cell] => .ok (.write cell)
  | copy, _ => .error .copyOperands
  | openLoop, refs => .error (.atMostOneOperand openLoop refs.length)
  | closeLoop, refs => .error (.atMostOneOperand closeLoop refs.length)
  | right, refs => .error (.oneOperand right refs.length)
  | left, refs => .error (.oneOperand left refs.length)
  | read, refs => .error (.oneOperand read refs.length)
  | write, refs => .error (.oneOperand write refs.length)
  | add, refs => .error (.twoOperands add refs.length)
  | sub, refs => .error (.twoOperands sub refs.length)
  | set, refs => .error (.twoOperands set refs.length)

/-- The definition with the given operands. -/
def readDefine : List (List Char) → Except Fault (Instr Ref)
  | [name, value] =>
    if isName name then return .define (String.ofList name) (← readRef value)
    else .error (.defineName (String.ofList name))
  | words => .error (.defineOperands words.length)

/-- The instruction of a line, none when it holds none (`parse_line`). -/
def readLine (text : String) : Except Fault (Option (Instr Ref)) :=
  match words text.toList with
  | [] => .ok none
  | head :: operands =>
    if head = "#define".toList then return some (← readDefine operands)
    else if head.head? = some '#' then .ok none
    else match Mnemonic.ofWord? (String.ofList head) with
      | none => .error (.unknownOperation (String.ofList head))
      | some mnemonic => do
        let refs ← operands.mapM readRef
        return some (← mnemonic.apply refs)

/-- Instructions with the lines on which they stand. -/
abbrev Numbered := List (Nat × Instr Ref)

/-- Reads lines of which the first has number `line`. -/
def readLines (line : Nat) : List String → Except Error Numbered
  | [] => .ok []
  | text :: rest =>
    match readLine text with
    | .error fault => .error ⟨line, fault⟩
    | .ok none => readLines (line + 1) rest
    | .ok (some instr) => return (line, instr) :: (← readLines (line + 1) rest)

/-- Reads the instructions of a text (`parse_program`). -/
def readProgram (source : String) : Except Error Numbered := readLines 1 (lines source)

end TapeCompiler.Asm
