/-!
# Instructions

The symbolic instructions of the tape. An instruction works on one row of cells: it names a cell by
its offset from the start of the row, and it leaves the head at the start of the row; only `right`
and `left` move on. Operands have a type of their own, so that the same instruction may hold names
and numbers, or offsets alone.

In text an instruction is one line, its mnemonic followed by its operands.
-/
namespace TapeCompiler.Asm

/-- An instruction over operands of type `α`. -/
inductive Instr (α : Type) where
  /-- Gives a name a number. -/
  | define (name : String) (value : α)
  | add (cell amount : α)
  | sub (cell amount : α)
  | set (cell amount : α)
  | right (count : α)
  | left (count : α)
  | openLoop (cell : α)
  | closeLoop (cell : α)
  /-- Adds the source to every target and clears it. -/
  | copy (source : α) (targets : List α)
  | read (cell : α)
  | write (cell : α)
  | comment (text : String)
  deriving DecidableEq, Repr

/-- What an operand is: the place of a cell or a number to work with. -/
inductive Role where
  | cell
  | amount
  deriving DecidableEq, Repr

namespace Instr

variable {α β ε : Type}

/-- All operands with their roles, in the order of the text (`operands`). -/
def operands : Instr α → List (Role × α)
  | define _ value => [(.amount, value)]
  | add cell amount | sub cell amount | set cell amount => [(.cell, cell), (.amount, amount)]
  | right count | left count => [(.amount, count)]
  | openLoop cell | closeLoop cell | read cell | write cell => [(.cell, cell)]
  | copy source targets => (.cell, source) :: targets.map (.cell, ·)
  | comment _ => []

/-- Changes every operand (`map_operands`). -/
def map (f : α → β) : Instr α → Instr β
  | define name value => define name (f value)
  | add cell amount => add (f cell) (f amount)
  | sub cell amount => sub (f cell) (f amount)
  | set cell amount => set (f cell) (f amount)
  | right count => right (f count)
  | left count => left (f count)
  | openLoop cell => openLoop (f cell)
  | closeLoop cell => closeLoop (f cell)
  | copy source targets => copy (f source) (targets.map f)
  | read cell => read (f cell)
  | write cell => write (f cell)
  | comment text => comment text

/-- Changes every operand, in the order of the text, until one cannot be changed. -/
def traverse (f : α → Except ε β) : Instr α → Except ε (Instr β)
  | define name value => return define name (← f value)
  | add cell amount => return add (← f cell) (← f amount)
  | sub cell amount => return sub (← f cell) (← f amount)
  | set cell amount => return set (← f cell) (← f amount)
  | right count => return right (← f count)
  | left count => return left (← f count)
  | openLoop cell => return openLoop (← f cell)
  | closeLoop cell => return closeLoop (← f cell)
  | copy source targets => return copy (← f source) (← targets.mapM f)
  | read cell => return read (← f cell)
  | write cell => return write (← f cell)
  | comment text => return comment text

theorem operands_map (f : α → β) (instr : Instr α) :
    (instr.map f).operands = instr.operands.map fun (role, x) => (role, f x) := by
  cases instr <;> simp [map, operands]

end Instr

/-! ## Names and numbers as operands -/

/-- An operand that may still be a name. -/
inductive Ref where
  | number (n : Int)
  | name (s : String)
  deriving DecidableEq, Repr

namespace Ref

def text : Ref → String
  | number n => toString n
  | name s => s

def isNumber : Ref → Bool
  | number _ => true
  | name _ => false

def name? : Ref → Option String
  | number _ => none
  | name s => some s

end Ref

/-- The names of the cells that an instruction touches, in the order of the text
(`variable_names`). -/
def Instr.cellNames (instr : Instr Ref) : List String :=
  instr.operands.filterMap fun (role, ref) => if role = .cell then ref.name? else none

/-! ## The text of an instruction -/

/-- The first words of instructions that may be written with any operands. -/
inductive Mnemonic where
  | add
  | sub
  | set
  | right
  | left
  | openLoop
  | closeLoop
  | copy
  | read
  | write
  deriving DecidableEq, Repr

namespace Mnemonic

def word : Mnemonic → String
  | add => "add"
  | sub => "sub"
  | set => "set"
  | right => "rs"
  | left => "ls"
  | openLoop => "loop"
  | closeLoop => "end"
  | copy => "copy"
  | read => "read"
  | write => "write"

def all : List Mnemonic :=
  [add, sub, set, right, left, openLoop, closeLoop, copy, read, write]

def ofWord? (word : String) : Option Mnemonic := all.find? (·.word == word)

theorem ofWord?_word (m : Mnemonic) : ofWord? m.word = some m := by
  cases m <;> decide

end Mnemonic

/-- The words of an instruction other than a comment. -/
def Instr.words : Instr Ref → List String
  | define name value => ["#define", name, value.text]
  | add cell amount => [Mnemonic.add.word, cell.text, amount.text]
  | sub cell amount => [Mnemonic.sub.word, cell.text, amount.text]
  | set cell amount => [Mnemonic.set.word, cell.text, amount.text]
  | right count => [Mnemonic.right.word, count.text]
  | left count => [Mnemonic.left.word, count.text]
  | openLoop cell => [Mnemonic.openLoop.word, cell.text]
  | closeLoop cell => [Mnemonic.closeLoop.word, cell.text]
  | copy source targets => Mnemonic.copy.word :: source.text :: targets.map Ref.text
  | read cell => [Mnemonic.read.word, cell.text]
  | write cell => [Mnemonic.write.word, cell.text]
  | comment text => ["#", text]

/-- The line of an instruction (`to_line`). -/
def Instr.line (instr : Instr Ref) : String := " ".intercalate instr.words

/-- The text of instructions, one line each (`render`). -/
def render (instrs : List (Instr Ref)) : String :=
  String.join (instrs.map fun instr => instr.line ++ "\n")

end TapeCompiler.Asm
