import TapeCompiler.Machine.Bracket
import TapeCompiler.Machine.Tape
/-!
# Running code

The machine goes through its code by position and jumps between the brackets of a loop by a table
made beforehand. One step may end the run, may fail, or may go on; a run is any number of steps.
Cells count modulo 256, and an exhausted input reads as zero.
-/
namespace TapeCompiler.Machine

/-- Code whose brackets are paired. -/
structure Program where
  ops : Array Op
  jumps : JumpTable
  deriving Repr

/-- The program of a code, none when its brackets do not match (`generate_code`). -/
def Program.ofCode? (code : List Op) : Option Program :=
  (JumpTable.ofBrackets? (code.map Op.bracket?)).map fun jumps => ⟨code.toArray, jumps⟩

structure State where
  /-- Position of the operation that is next. -/
  counter : Nat
  tape : Tape
  /-- The input not yet read. -/
  input : List UInt8
  /-- All that has been written. -/
  output : Array UInt8
  deriving DecidableEq, Repr

def State.initial (tape : Tape) (input : List UInt8) : State := ⟨0, tape, input, #[]⟩

/-- Why a machine cannot go on. -/
inductive Fault where
  /-- An operation needs a cell and the tape has none. -/
  | noCell
  /-- A jump leads nowhere. A program made from a code has no such jump. -/
  | noPartner
  deriving DecidableEq, Repr

/-- Where a run stands. -/
inductive Progress where
  | running (state : State)
  | halted (state : State)
  | failed (fault : Fault) (state : State)
  deriving DecidableEq, Repr

/-- Goes on behind the partner of the bracket at the counter. -/
def jump (jumps : JumpTable) : State → Progress
  | ⟨counter, tape, input, output⟩ =>
    match jumps.partner? counter with
    | some partner => .running ⟨partner + 1, tape, input, output⟩
    | none => .failed .noPartner ⟨counter, tape, input, output⟩

/-- Carries out one operation: a round of the loop in `execute`. -/
def execute (jumps : JumpTable) (op : Op) : State → Progress
  | ⟨counter, tape, input, output⟩ =>
    match op with
    | .right => .running ⟨counter + 1, tape.moveRight, input, output⟩
    | .left => .running ⟨counter + 1, tape.moveLeft, input, output⟩
    | op =>
      match tape.current? with
      | none => .failed .noCell ⟨counter, tape, input, output⟩
      | some byte =>
        match op with
        | .increment => .running ⟨counter + 1, tape.update (· + 1), input, output⟩
        | .decrement => .running ⟨counter + 1, tape.update (· - 1), input, output⟩
        | .write => .running ⟨counter + 1, tape, input, output.push byte⟩
        | .read =>
          .running ⟨counter + 1, tape.update fun _ => input.headD 0, input.tail, output⟩
        | .openLoop =>
          if byte = 0 then jump jumps ⟨counter, tape, input, output⟩
          else .running ⟨counter + 1, tape, input, output⟩
        | .closeLoop =>
          if byte = 0 then .running ⟨counter + 1, tape, input, output⟩
          else jump jumps ⟨counter, tape, input, output⟩
        | .right | .left => .running ⟨counter + 1, tape, input, output⟩

/-- One step. Beyond the last operation the run is over. -/
def step (program : Program) (state : State) : Progress :=
  match program.ops[state.counter]? with
  | none => .halted state
  | some op => execute program.jumps op state

/-- At most `steps` steps. -/
def advance (program : Program) : Nat → State → Progress
  | 0, state => .running state
  | steps + 1, state =>
    match step program state with
    | .running next => advance program steps next
    | ended => ended

/-- Steps may be taken in portions. -/
theorem advance_add (program : Program) (m n : Nat) (state : State) :
    advance program (m + n) state =
      match advance program m state with
      | .running next => advance program n next
      | ended => ended := by
  induction m generalizing state with
  | zero => rw [Nat.zero_add, advance]
  | succ m ih =>
    rw [Nat.succ_add, advance, advance]
    cases step program state with
    | running next => exact ih next
    | halted _ => rfl
    | failed _ _ => rfl

/-! ## Whole runs -/

/-- How many cells a tape has when nobody asks for another number. -/
def defaultTapeSize : Int := 30000

/-- Why a run ends without an answer. -/
inductive Failure where
  | mismatchedBrackets
  | negativeTapeSize
  | fault (fault : Fault)
  deriving DecidableEq, Repr

def Failure.message : Failure → String
  | mismatchedBrackets => "Mismatched brackets in Brainfuck code"
  | negativeTapeSize => "negative count"
  | fault .noCell => "bytearray index out of range"
  | fault .noPartner => "unpaired bracket"

/-- A program at its start on a fresh tape. The brackets are looked at before the tape is made. -/
def load (code : List Op) (input : List UInt8) (tapeSize : Int) :
    Except Failure (Program × State) :=
  match Program.ofCode? code with
  | none => .error .mismatchedBrackets
  | some program =>
    if tapeSize < 0 then .error .negativeTapeSize
    else .ok (program, .initial (.blank tapeSize.toNat) input)

/-- What a halted run leaves behind. -/
structure Outcome where
  output : Array UInt8
  memory : Array UInt8
  deriving DecidableEq, Repr

/-- The answer of a run that has ended. -/
def Progress.answer? : Progress → Option (Except Failure Outcome)
  | running _ => none
  | halted state => some (.ok ⟨state.output, state.tape.cells⟩)
  | failed fault _ => some (.error (.fault fault))

/-- Runs code on a fresh tape for at most `steps` steps (`run`). -/
def run (steps : Nat) (code : List Op) (input : List UInt8) (tapeSize : Int) :
    Option (Except Failure Outcome) :=
  match load code input tapeSize with
  | .error failure => some (.error failure)
  | .ok (program, state) => (advance program steps state).answer?

end TapeCompiler.Machine
