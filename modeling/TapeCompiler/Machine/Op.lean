/-!
# Machine code

The machine has eight operations, each written as one character. Every other character of a code
text is a remark. Reading what was written gives the code back (`readCode_codeText`).
-/
namespace TapeCompiler

inductive Op where
  | increment
  | decrement
  | right
  | left
  | openLoop
  | closeLoop
  | read
  | write
  deriving DecidableEq, Repr

namespace Op

def symbol : Op → Char
  | increment => '+'
  | decrement => '-'
  | right => '>'
  | left => '<'
  | openLoop => '['
  | closeLoop => ']'
  | read => ','
  | write => '.'

def ofSymbol? : Char → Option Op
  | '+' => some increment
  | '-' => some decrement
  | '>' => some right
  | '<' => some left
  | '[' => some openLoop
  | ']' => some closeLoop
  | ',' => some read
  | '.' => some write
  | _ => none

@[simp] theorem ofSymbol?_symbol (op : Op) : ofSymbol? op.symbol = some op := by
  cases op <;> rfl

end Op

/-- The text of a code. -/
def codeText (code : List Op) : String := String.ofList (code.map Op.symbol)

/-- The operations in a text, remarks left out (`is_code_char` tells them apart). -/
def readCode (text : String) : List Op := text.toList.filterMap Op.ofSymbol?

theorem readCode_codeText (code : List Op) : readCode (codeText code) = code := by
  have h : Op.ofSymbol? ∘ Op.symbol = some := funext Op.ofSymbol?_symbol
  rw [readCode, codeText, String.toList_ofList, List.filterMap_map, h, List.filterMap_some]

end TapeCompiler
