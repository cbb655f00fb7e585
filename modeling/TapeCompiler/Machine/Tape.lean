/-!
# The tape

A tape is a ring of byte cells with a head. On a tape without cells the head may still move, but
there is nothing under it.
-/
namespace TapeCompiler

structure Tape where
  cells : Array UInt8
  head : Nat
  deriving DecidableEq, Repr

namespace Tape

/-- A tape of zeros with the head on the first cell. -/
def blank (size : Nat) : Tape := ⟨Array.replicate size 0, 0⟩

def size (t : Tape) : Nat := t.cells.size

/-- The next cell, the first one after the last. -/
def moveRight : Tape → Tape
  | ⟨cells, head⟩ => ⟨cells, if head + 1 < cells.size then head + 1 else 0⟩

/-- The cell before, the last one before the first. -/
def moveLeft : Tape → Tape
  | ⟨cells, head⟩ => ⟨cells, if head = 0 then cells.size - 1 else head - 1⟩

/-- The byte under the head, if there is a cell. -/
def current? (t : Tape) : Option UInt8 := t.cells[t.head]?

/-- Changes the byte under the head, if there is a cell. -/
def update (f : UInt8 → UInt8) : Tape → Tape
  | ⟨cells, head⟩ => ⟨cells.modify head f, head⟩

@[simp] theorem size_update (f : UInt8 → UInt8) (t : Tape) : (t.update f).size = t.size := by
  simp [size, update]

theorem head_moveRight_lt {t : Tape} (h : 0 < t.size) : t.moveRight.head < t.size := by
  unfold size at h
  simp only [moveRight, size]
  split <;> omega

theorem head_moveLeft_lt {t : Tape} (h : t.head < t.size) : t.moveLeft.head < t.size := by
  unfold size at h
  simp only [moveLeft, size]
  split <;> omega

/-- Going right and back ends where it began, round the ring too. -/
theorem moveLeft_moveRight {t : Tape} (h : t.head < t.size) : t.moveRight.moveLeft = t := by
  obtain ⟨cells, head⟩ := t
  simp only [size] at h
  simp only [moveRight, moveLeft, mk.injEq, true_and]
  split <;> split <;> omega

end Tape

end TapeCompiler
