import TapeCompiler.Asm.Encode
import TapeCompiler.Proofs.Machine.Structured
/-!
# Instructions on a tape

Instructions over numbers mean changes of a tape whose head stands at the start of a row: operand
`k` is the cell `k` places behind the head, round the ring if need be, and only `right` and `left`
move the head. Loops repeat while their cell is not zero, seen from where the head is then. A copy
moves its source into the targets one unit at a time.
-/
namespace TapeCompiler

/-! ## Cells behind the head -/

namespace Snapshot

variable {s t : Snapshot}

theorem size_pos (s : Snapshot) : 0 < s.tape.size := Nat.zero_lt_of_lt s.head_lt

/-- The place `d` cells behind the head, or before it if `d` is negative. -/
def place (s : Snapshot) (d : Int) : Nat := ((s.tape.head + d) % s.tape.size).toNat

theorem place_cast (s : Snapshot) (d : Int) :
    (s.place d : Int) = (s.tape.head + d) % s.tape.size :=
  Int.toNat_of_nonneg (Int.emod_nonneg _ (by have := s.size_pos; omega))

theorem place_lt (s : Snapshot) (d : Int) : s.place d < s.tape.size := by
  have hpos : (0 : Int) < s.tape.size := by have := s.size_pos; omega
  have := Int.emod_lt_of_pos (s.tape.head + d) hpos
  have := s.place_cast d
  omega

/-- Moves the head. -/
def travel (d : Int) (s : Snapshot) : Snapshot :=
  { s with
    tape := ⟨s.tape.cells, s.place d⟩
    head_lt := s.place_lt d }

/-- The byte at an offset. -/
def value (k : Nat) (s : Snapshot) : UInt8 := getElem s.tape.cells (s.place k) (s.place_lt k)

/-- Changes the byte at an offset. -/
def change (k : Nat) (f : UInt8 → UInt8) (s : Snapshot) : Snapshot :=
  { s with
    tape := ⟨s.tape.cells.modify (s.place k) f, s.tape.head⟩
    head_lt := by rw [Tape.size, Array.size_modify]; exact s.head_lt }

theorem eq_of_heads (hcells : s.tape.cells = t.tape.cells) (hhead : s.tape.head = t.tape.head)
    (hinput : s.input = t.input) (houtput : s.output = t.output) : s = t := by
  obtain ⟨⟨cells, head⟩, input, output, _⟩ := s
  obtain ⟨⟨_, _⟩, _, _, _⟩ := t
  simp only at hcells hhead hinput houtput
  subst hcells hhead hinput houtput
  rfl

/-- Two places are one when the ring cannot tell their distances from the head apart. -/
theorem place_eq_of {d e : Int} (h : (s.tape.head + d) % s.tape.size =
    (t.tape.head + e) % t.tape.size) : s.place d = t.place e := congrArg Int.toNat h

theorem place_travel (s : Snapshot) (a b : Int) : (s.travel a).place b = s.place (a + b) := by
  have h : (s.travel a).tape.size = s.tape.size := rfl
  have hhead : ((s.travel a).tape.head : Int) = (s.tape.head + a) % s.tape.size := s.place_cast a
  refine place_eq_of ?_
  rw [h, hhead, Int.emod_add_emod, Int.add_assoc]

@[simp] theorem place_zero (s : Snapshot) : s.place 0 = s.tape.head := by
  have := s.head_lt
  rw [place, Int.add_zero, ← Int.natCast_emod, Int.toNat_natCast, Nat.mod_eq_of_lt this]

@[simp] theorem travel_zero (s : Snapshot) : s.travel 0 = s :=
  eq_of_heads rfl s.place_zero rfl rfl

@[simp] theorem travel_travel (s : Snapshot) (a b : Int) :
    (s.travel a).travel b = s.travel (a + b) :=
  eq_of_heads rfl (s.place_travel a b) rfl rfl

theorem moveRight_eq (s : Snapshot) : s.moveRight = s.travel 1 := by
  refine eq_of_heads rfl ?_ rfl rfl
  have hlt := s.head_lt
  have hplace : s.place 1 = (s.tape.head + 1) % s.tape.size := by
    rw [place, ← Int.toNat_natCast ((s.tape.head + 1) % s.tape.size)]
    simp
  have hmove : s.tape.moveRight.head =
      if s.tape.head + 1 < s.tape.size then s.tape.head + 1 else 0 := rfl
  rw [show s.moveRight.tape.head = s.tape.moveRight.head from rfl, hmove,
    show (s.travel 1).tape.head = s.place 1 from rfl, hplace]
  split
  · next h => rw [Nat.mod_eq_of_lt h]
  · next h =>
    have : s.tape.head + 1 = s.tape.size := by omega
    rw [this, Nat.mod_self]

theorem moveRight_moveLeft (s : Snapshot) : s.moveRight.moveLeft = s :=
  ext_of (Tape.moveLeft_moveRight s.head_lt) rfl rfl

theorem moveLeft_eq (s : Snapshot) : s.moveLeft = s.travel (-1) := by
  have h := moveRight_moveLeft (s.travel (-1))
  rwa [moveRight_eq, travel_travel, Int.add_left_neg, travel_zero] at h

theorem travel_emit (s : Snapshot) (byte : UInt8) (d : Int) :
    (s.emit byte).travel d = (s.travel d).emit byte := rfl

theorem travel_consume (s : Snapshot) (d : Int) : s.consume.travel d = (s.travel d).consume := rfl

theorem byte_travel (s : Snapshot) (k : Nat) : (s.travel k).byte = s.value k := rfl

/-- A change at an offset is made by going there, changing the byte under the head, and coming
back. -/
theorem update_travel (s : Snapshot) (k : Nat) (f : UInt8 → UInt8) :
    ((s.travel k).update f).travel (-k) = s.change k f := by
  have hcells : ((s.travel k).update f).tape.cells = s.tape.cells.modify (s.place k) f := rfl
  have hplace : ((s.travel k).update f).place (-k) = (s.travel k).place (-k) := by
    have h : ((s.travel k).update f).tape.size = (s.travel k).tape.size := Tape.size_update f _
    refine place_eq_of ?_
    rw [h]
    rfl
  refine eq_of_heads hcells ?_ rfl rfl
  exact hplace.trans ((s.place_travel k (-k)).trans (by rw [Int.add_right_neg, place_zero]; rfl))

end Snapshot

/-! ## The meaning of instructions -/

namespace Asm

/-- The piece that an instruction is: its loops are labelled by their operands. -/
def Instr.piece {α : Type} : Instr α → Piece (Instr α) α
  | .openLoop cell => .opening cell
  | .closeLoop cell => .closing cell
  | instr => .act instr

/-- The round of a copy: one unit less in the source, one more in every target. -/
def copyRound (source : Nat) (targets : List Nat) (s : Snapshot) : Snapshot :=
  targets.foldl (fun s target => s.change target (· + 1)) (s.change source (· - 1))

/-- What an instruction other than a bracket does. -/
def Instr.Acts : Instr Nat → Snapshot → Snapshot → Prop
  | .define _ _, s, t => t = s
  | .add cell amount, s, t => t = s.change cell (· + .ofNat amount)
  | .sub cell amount, s, t => t = s.change cell (· - .ofNat amount)
  | .set cell amount, s, t => t = s.change cell fun _ => .ofNat amount
  | .right count, s, t => t = s.travel count
  | .left count, s, t => t = s.travel (-count)
  | .openLoop _, _, _ => False
  | .closeLoop _, _, _ => False
  | .copy source targets, s, t =>
    Repeat (fun s => s.value source ≠ 0) (fun s t => t = copyRound source targets s) s t
  | .read cell, s, t => t = (s.change cell fun _ => s.input.headD 0).consume
  | .write cell, s, t => t = s.emit (s.value cell)
  | .comment _, s, t => t = s

/-- The meaning of instructions over numbers. -/
def tapeMeaning : Meaning (Instr Nat) Nat Snapshot where
  act := Instr.Acts
  test cell s := s.value cell ≠ 0

end Asm

end TapeCompiler
