import TapeCompiler.Asm.Reading
/-!
# Definitions

A definition gives a name a number for all later instructions; a later one for the same name takes
its place. Names are looked up when the definition is met, so a definition by a name stands for the
number that the name has there. Names without definition stay as they are, except that no
definition may rest on one.
-/
namespace TapeCompiler.Asm

/-- The definitions met so far, the latest first. -/
abbrev Definitions := List (String × Int)

/-- An operand with its name replaced by the number defined for it (`resolve`). -/
def Ref.resolve (definitions : Definitions) : Ref → Ref
  | number n => number n
  | name s =>
    match definitions.lookup s with
    | some n => number n
    | none => name s

@[simp] theorem Ref.resolve_number (definitions : Definitions) (n : Int) :
    (Ref.number n).resolve definitions = .number n := rfl

/-- Replaces defined names and drops the definitions (`_expand`). -/
def expandFrom (definitions : Definitions) : Numbered → Except Error Numbered
  | [] => .ok []
  | (line, instr) :: rest =>
    match instr with
    | .define name value =>
      match value.resolve definitions with
      | .number n => expandFrom ((name, n) :: definitions) rest
      | .name s => .error ⟨line, .unresolvedValue s instr⟩
    | _ => return (line, instr.map (Ref.resolve definitions)) :: (← expandFrom definitions rest)

def expand (program : Numbered) : Except Error Numbered := expandFrom [] program

/-- Instructions numbered by their places, counted from one. -/
def numbered (instrs : List (Instr Ref)) : Numbered :=
  (instrs.zipIdx 1).map fun (instr, line) => (line, instr)

/-- Expands instructions that were not read from text (`expand_macros`). -/
def expandInstrs (instrs : List (Instr Ref)) : Except Error (List (Instr Ref)) :=
  return (← expand (numbered instrs)).map Prod.snd

/-- Expands a text into a text (`preprocess`). -/
def expandText (source : String) : Except Error String := do
  let expanded ← expand (← readProgram source)
  return render (expanded.map Prod.snd)

end TapeCompiler.Asm
