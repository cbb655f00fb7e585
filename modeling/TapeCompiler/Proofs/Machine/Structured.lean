import TapeCompiler.Machine.Run
import TapeCompiler.Proofs.Loops.WellNested
/-!
# Machine code as structured code

The six operations other than brackets are the plain instructions of machine code; its brackets
repeat what they enclose while the byte under the head is not zero. Meanings are over snapshots:
what a machine holds apart from the place where it is in its code.
-/
namespace TapeCompiler

/-- The operations other than brackets. -/
inductive Command where
  | increment
  | decrement
  | right
  | left
  | read
  | write
  deriving DecidableEq, Repr

def Command.op : Command → Op
  | increment => .increment
  | decrement => .decrement
  | right => .right
  | left => .left
  | read => .read
  | write => .write

def Op.piece : Op → Piece Command Unit
  | increment => .act .increment
  | decrement => .act .decrement
  | right => .act .right
  | left => .act .left
  | openLoop => .opening ()
  | closeLoop => .closing ()
  | read => .act .read
  | write => .act .write

@[simp] theorem Op.piece_op (c : Command) : c.op.piece = .act c := by
  cases c <;> rfl

/-- The operation that a piece is written as. -/
def Piece.op : Piece Command Unit → Op
  | act c => c.op
  | opening _ => .openLoop
  | closing _ => .closeLoop

@[simp] theorem Op.op_piece (op : Op) : op.piece.op = op := by
  cases op <;> rfl

@[simp] theorem Piece.piece_op (p : Piece Command Unit) : p.op.piece = p := by
  cases p with
  | act c => exact Op.piece_op c
  | opening | closing => rfl

/-! ## Snapshots -/

/-- The tape with its head on a cell, the input not yet read, and what has been written. -/
structure Snapshot where
  tape : Tape
  input : List UInt8
  output : Array UInt8
  head_lt : tape.head < tape.size

namespace Snapshot

theorem ext_of {s t : Snapshot} (htape : s.tape = t.tape) (hinput : s.input = t.input)
    (houtput : s.output = t.output) : s = t := by
  obtain ⟨_, _, _, _⟩ := s
  obtain ⟨_, _, _, _⟩ := t
  subst htape hinput houtput
  rfl

/-- A tape at its start: the head on the first cell, nothing written. -/
def start (cells : Array UInt8) (h : 0 < cells.size) (input : List UInt8) : Snapshot :=
  ⟨⟨cells, 0⟩, input, #[], h⟩

/-- The byte under the head. -/
def byte (s : Snapshot) : UInt8 := getElem s.tape.cells s.tape.head s.head_lt

theorem current?_tape (s : Snapshot) : s.tape.current? = some s.byte :=
  Array.getElem?_eq_getElem s.head_lt

def moveRight (s : Snapshot) : Snapshot :=
  { s with
    tape := s.tape.moveRight
    head_lt := Tape.head_moveRight_lt (Nat.zero_lt_of_lt s.head_lt) }

def moveLeft (s : Snapshot) : Snapshot :=
  { s with
    tape := s.tape.moveLeft
    head_lt := Tape.head_moveLeft_lt s.head_lt }

/-- Changes the byte under the head. -/
def update (f : UInt8 → UInt8) (s : Snapshot) : Snapshot :=
  { s with
    tape := s.tape.update f
    head_lt := by rw [Tape.size_update]; exact s.head_lt }

/-- Writes a byte. -/
def emit (byte : UInt8) (s : Snapshot) : Snapshot := { s with output := s.output.push byte }

/-- Uses up the first byte of the input, if there is any. -/
def consume (s : Snapshot) : Snapshot := { s with input := s.input.tail }

end Snapshot

/-- What a plain operation does. -/
def Command.apply : Command → Snapshot → Snapshot
  | increment, s => s.update (· + 1)
  | decrement, s => s.update (· - 1)
  | right, s => s.moveRight
  | left, s => s.moveLeft
  | read, s => (s.update fun _ => s.input.headD 0).consume
  | write, s => s.emit s.byte

/-- The meaning of machine code: a loop goes on while the byte under the head is not zero. -/
def machineMeaning : Meaning Command Unit Snapshot where
  act c s t := t = c.apply s
  test _ s := s.byte ≠ 0

end TapeCompiler
