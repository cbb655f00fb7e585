import TapeCompiler.Asm.Definition
import TapeCompiler.Machine.Op
/-!
# Encoding instructions

Every instruction but `right` and `left` brings the head back to the start of the row, so offsets
never depend on what came before. `encode` is the encoding of offsets; `encodeRef` first makes sure
that every operand is one.
-/
namespace TapeCompiler.Asm

/-- Code carried out at an offset from the start of the row (`_at`). -/
def encodeAt (offset : Nat) (code : List Op) : List Op :=
  List.replicate offset .right ++ code ++ List.replicate offset .left

/-- Empties the source, one unit at a time, into every target (`_copy`). -/
def encodeCopy (source : Nat) (targets : List Nat) : List Op :=
  List.replicate source .right ++ [.openLoop, .decrement] ++ List.replicate source .left
    ++ targets.flatMap (encodeAt · [.increment])
    ++ List.replicate source .right ++ [.closeLoop] ++ List.replicate source .left

/-- The code of an instruction over offsets and counts (`encode`). -/
def encode : Instr Nat → List Op
  | .define _ _ => []
  | .add cell amount => encodeAt cell (List.replicate amount .increment)
  | .sub cell amount => encodeAt cell (List.replicate amount .decrement)
  | .set cell amount =>
    encodeAt cell ([.openLoop, .decrement, .closeLoop] ++ List.replicate amount .increment)
  | .right count => List.replicate count .right
  | .left count => List.replicate count .left
  | .openLoop cell => encodeAt cell [.openLoop]
  | .closeLoop cell => encodeAt cell [.closeLoop]
  | .copy source targets => encodeCopy source targets
  | .read cell => encodeAt cell [.read]
  | .write cell => encodeAt cell [.write]
  | .comment _ => []

/-! ## Operands that may not be offsets -/

/-- The offset or count that an operand of `instr` stands for (`number` in `encode`). -/
def Ref.offset (instr : Instr Ref) : Ref → Except Fault Nat
  | name s => .error (.unresolvedOperand s instr)
  | number n => if n < 0 then .error (.negativeOperand n instr) else .ok n.toNat

/-- Counts from here on, the 63rd power of two, are refused. -/
def countLimit : Nat := 0x8000000000000000

/-- The instruction over offsets, once every operand is one and none is too large. -/
def Instr.offsets (instr : Instr Ref) : Except Fault (Instr Nat) := do
  let resolved ← instr.traverse (Ref.offset instr)
  if resolved.operands.all (·.2 < countLimit) then .ok resolved else .error .countTooLarge

/-- The code of an instruction (`encode`). Definitions and comments have none, whatever their
operands. -/
def encodeRef (instr : Instr Ref) : Except Fault (List Op) :=
  match instr with
  | .define _ _ | .comment _ => .ok []
  | _ => instr.offsets.map encode

/-- The code of an expanded program. -/
def encodeAll : Numbered → Except Error (List Op)
  | [] => .ok []
  | (line, instr) :: rest =>
    match encodeRef instr with
    | .error fault => .error ⟨line, fault⟩
    | .ok code => return code ++ (← encodeAll rest)

/-- The code of a program: all definitions are expanded before anything is encoded. -/
def assembleNumbered (program : Numbered) : Except Error (List Op) := do
  encodeAll (← expand program)

/-- Assembles instructions that were not read from text (`assemble_ops`). -/
def assembleInstrs (instrs : List (Instr Ref)) : Except Error (List Op) :=
  assembleNumbered (numbered instrs)

/-- Assembles a text (`assemble`). -/
def assemble (source : String) : Except Error (List Op) := do
  assembleNumbered (← readProgram source)

end TapeCompiler.Asm
