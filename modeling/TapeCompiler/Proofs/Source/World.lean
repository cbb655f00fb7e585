import TapeCompiler.Source.Statement
/-!
# Worlds

What a program works on: rows without end in both directions, on every row one byte for each name,
the row where the program is, the input not yet read, and the output. Generated code works on the
same worlds but keeps cells of its own in them; `SameOff` compares worlds apart from such cells.
-/
namespace TapeCompiler

structure World where
  row : Int
  cells : Int → String → UInt8
  input : List UInt8
  output : Array UInt8

namespace World

variable {w v u : World} {x y : String} {b : UInt8}

/-- The world in which a program starts. -/
def initial (input : List UInt8) : World := ⟨0, fun _ _ => 0, input, #[]⟩

/-- The byte of a name on the row where the program is. -/
def get (w : World) (x : String) : UInt8 := w.cells w.row x

/-- Changes the byte of a name on the row where the program is. -/
def put (x : String) (b : UInt8) (w : World) : World :=
  { w with cells := fun r y => if r = w.row ∧ y = x then b else w.cells r y }

def move : Direction → World → World
  | .right, w => { w with row := w.row + 1 }
  | .left, w => { w with row := w.row - 1 }

/-- Uses up the first byte of the input, if there is any. -/
def consume (w : World) : World := { w with input := w.input.tail }

/-- Stores the first byte of the input, or zero when there is none. -/
def read (x : String) (w : World) : World := (w.put x (w.input.headD 0)).consume

/-- Writes the byte of a name. -/
def write (x : String) (w : World) : World := { w with output := w.output.push (w.get x) }

@[simp] theorem row_put : (w.put x b).row = w.row := rfl

theorem cells_put (r : Int) :
    (w.put x b).cells r y = if r = w.row ∧ y = x then b else w.cells r y := rfl

@[simp] theorem get_put_self : (w.put x b).get x = b := by
  simp [get, put]

theorem get_put_of_ne (h : y ≠ x) : (w.put x b).get y = w.get y := by
  simp [get, put, h]

theorem ext_of (hrow : v.row = w.row) (hinput : v.input = w.input) (houtput : v.output = w.output)
    (hcells : ∀ r y, v.cells r y = w.cells r y) : v = w := by
  obtain ⟨_, cells, _, _⟩ := v
  obtain ⟨_, _, _, _⟩ := w
  obtain rfl : cells = _ := funext fun r => funext (hcells r)
  simp only at hrow hinput houtput
  subst hrow hinput houtput
  rfl

/-! ## Worlds that differ in hidden cells only -/

/-- Equal apart from the cells with a hidden name. -/
structure SameOff (hidden : String → Prop) (w v : World) : Prop where
  row : v.row = w.row
  input : v.input = w.input
  output : v.output = w.output
  cells : ∀ r x, ¬hidden x → v.cells r x = w.cells r x

namespace SameOff

variable {hidden hidden' : String → Prop}

theorem refl : SameOff hidden w w := ⟨rfl, rfl, rfl, fun _ _ _ => rfl⟩

theorem trans (h : SameOff hidden w v) (h' : SameOff hidden v u) : SameOff hidden w u where
  row := h'.row.trans h.row
  input := h'.input.trans h.input
  output := h'.output.trans h.output
  cells r x hx := (h'.cells r x hx).trans (h.cells r x hx)

theorem mono (h : SameOff hidden w v) (hsub : ∀ x, hidden x → hidden' x) :
    SameOff hidden' w v :=
  ⟨h.row, h.input, h.output, fun r x hx => h.cells r x fun hh => hx (hsub x hh)⟩

theorem put (hx : hidden x) : SameOff hidden w (w.put x b) where
  row := rfl
  input := rfl
  output := rfl
  cells r y hy := if_neg fun h : r = w.row ∧ y = x => hy (h.2 ▸ hx)

theorem get (h : SameOff hidden w v) (hx : ¬hidden x) : v.get x = w.get x := by
  rw [World.get, h.row, h.cells _ _ hx, World.get]

/-- The same change on both sides keeps worlds alike. -/
theorem put_both (h : SameOff hidden w v) (x : String) (b : UInt8) :
    SameOff hidden (w.put x b) (v.put x b) where
  row := h.row
  input := h.input
  output := h.output
  cells r y hy := by rw [cells_put, cells_put, h.row, h.cells r y hy]

theorem move_both (h : SameOff hidden w v) (d : Direction) :
    SameOff hidden (w.move d) (v.move d) := by
  cases d with
  | right => exact ⟨congrArg (· + 1) h.row, h.input, h.output, h.cells⟩
  | left => exact ⟨congrArg (· - 1) h.row, h.input, h.output, h.cells⟩

theorem read_both (h : SameOff hidden w v) (x : String) : SameOff hidden (w.read x) (v.read x) := by
  rw [World.read, World.read, h.input]
  exact ⟨h.row, congrArg List.tail h.input, h.output, (h.put_both x _).cells⟩

theorem write_both (h : SameOff hidden w v) (hx : ¬hidden x) :
    SameOff hidden (w.write x) (v.write x) := by
  refine ⟨h.row, h.input, ?_, h.cells⟩
  rw [World.write, World.write, h.output, h.get hx]

end SameOff

end World

end TapeCompiler
