import Mathlib.Data.Int.ModEq
import TapeCompiler.Proofs.Asm.TapeMeaning
import TapeCompiler.Proofs.Machine.Reachable
/-!
# Where the head is

Operations that are carried out one after the other displace the head by as many cells as they have
moves to the right, less those to the left. So the position of an operation in the code tells where
the head is when the run comes to it, as long as the run has made no jump. A jump leaves the head
where it is, and so from then on the head is off by the difference between the two brackets
(`head_of_advance`).
-/
namespace TapeCompiler

/-! ## Moves -/

/-- How many cells an operation moves the head to the right. -/
def Op.displacement : Op → Int
  | right => 1
  | left => -1
  | _ => 0

theorem Op.displacement_of_bracket {op : Op} (h : op.bracket? ≠ none) : op.displacement = 0 := by
  cases op with
  | openLoop | closeLoop => rfl
  | increment | decrement | right | left | read | write => exact absurd rfl h

/-- How far operations move the head if they are carried out one after the other. -/
def displacement (ops : List Op) : Int := (ops.map Op.displacement).sum

@[simp] theorem displacement_nil : displacement [] = 0 := rfl

@[simp] theorem displacement_cons (op : Op) (ops : List Op) :
    displacement (op :: ops) = op.displacement + displacement ops := rfl

@[simp] theorem displacement_append (first second : List Op) :
    displacement (first ++ second) = displacement first + displacement second := by
  simp [displacement]

@[simp] theorem displacement_replicate (n : Nat) (op : Op) :
    displacement (List.replicate n op) = n * op.displacement := by
  simp [displacement]

/-- How far the head is displaced in front of a position of a code. -/
def offset (code : List Op) (position : Nat) : Int := displacement (code.take position)

theorem offset_succ {code : List Op} {position : Nat} {op : Op} (h : code[position]? = some op) :
    offset code (position + 1) = offset code position + op.displacement := by
  rw [offset, offset, List.take_add_one, h, displacement_append]
  simp

theorem offset_append (first second : List Op) (position : Nat) :
    offset (first ++ second) (first.length + position) =
      displacement first + offset second position := by
  rw [offset, List.take_length_add_append, displacement_append, offset]

theorem offset_append_of_le {first : List Op} {position : Nat} (h : position ≤ first.length)
    (second : List Op) : offset (first ++ second) position = offset first position := by
  rw [offset, List.take_append_of_le_length h, offset]

/-! ## Along a code -/

/-- The operations of a code, each behind how far the head is displaced where it is carried out. -/
def alongFrom : Int → List Op → List (Int × Op)
  | _, [] => []
  | d, op :: rest => (d, op) :: alongFrom (d + op.displacement) rest

theorem alongFrom_append (d : Int) (first second : List Op) :
    alongFrom d (first ++ second) =
      alongFrom d first ++ alongFrom (d + displacement first) second := by
  induction first generalizing d with
  | nil => simp [alongFrom]
  | cons op rest ih => simp [alongFrom, ih, Int.add_assoc]

theorem alongFrom_flatMap {α : Type} {f : α → List Op} {xs : List α}
    (h : ∀ x ∈ xs, displacement (f x) = 0) (d : Int) :
    alongFrom d (xs.flatMap f) = xs.flatMap fun x => alongFrom d (f x) := by
  induction xs with
  | nil => rfl
  | cons x rest ih =>
    rw [List.forall_mem_cons] at h
    rw [List.flatMap_cons, alongFrom_append, h.1, Int.add_zero, ih h.2, List.flatMap_cons]

theorem mem_alongFrom {code : List Op} {position : Nat} {op : Op} (h : code[position]? = some op)
    (d : Int) : (d + offset code position, op) ∈ alongFrom d code := by
  induction code generalizing position d with
  | nil => cases h
  | cons first rest ih =>
    cases position with
    | zero =>
      cases h
      exact List.mem_cons.2 (.inl (by simp [offset]))
    | succ position =>
      have hmem := ih h (d + first.displacement)
      rw [Int.add_assoc] at hmem
      exact List.mem_cons_of_mem _ hmem

theorem mem_of_mem_alongFrom {code : List Op} {d : Int} {x : Int × Op} (h : x ∈ alongFrom d code) :
    x.2 ∈ code := by
  induction code generalizing d with
  | nil => exact absurd h List.not_mem_nil
  | cons op rest ih =>
    obtain rfl | h := List.mem_cons.1 h
    · exact List.mem_cons_self
    · exact List.mem_cons_of_mem _ (ih h)

/-- Operations that do not move the head are all carried out at one place. -/
theorem eq_of_mem_alongFrom {code : List Op} (hcode : ∀ op ∈ code, op.displacement = 0) {d : Int}
    {x : Int × Op} (h : x ∈ alongFrom d code) : x.1 = d := by
  induction code with
  | nil => exact absurd h List.not_mem_nil
  | cons op rest ih =>
    rw [List.forall_mem_cons] at hcode
    rw [alongFrom, hcode.1, Int.add_zero] at h
    obtain rfl | h := List.mem_cons.1 h
    · rfl
    · exact ih hcode.2 h

/-! ## The head of a snapshot -/

theorem head_apply (c : Command) (s : Snapshot) :
    ((c.apply s).tape.head : Int) ≡ s.tape.head + c.op.displacement [ZMOD s.tape.size] := by
  cases c with
  | increment | decrement | read | write =>
    show (s.tape.head : Int) ≡ s.tape.head + 0 [ZMOD s.tape.size]
    rw [Int.add_zero]
  | right =>
    rw [Command.apply, Snapshot.moveRight_eq]
    show (s.place 1 : Int) ≡ s.tape.head + 1 [ZMOD s.tape.size]
    rw [Snapshot.place_cast]
    exact Int.mod_modEq _ _
  | left =>
    rw [Command.apply, Snapshot.moveLeft_eq]
    show (s.place (-1) : Int) ≡ s.tape.head + -1 [ZMOD s.tape.size]
    rw [Snapshot.place_cast]
    exact Int.mod_modEq _ _

namespace Machine

variable {program : Program} {code : List Op}

/-! ## Jumps -/

/-- The jump that a step makes, as the bracket it is made at and the one it goes behind. -/
def jumpMade (program : Program) (state : State) : List (Nat × Nat) :=
  match step program state with
  | .running next =>
    if next.counter = state.counter + 1 then [] else [(state.counter, next.counter - 1)]
  | _ => []

/-- The jumps that `steps` steps make, in order. -/
def jumpsMade (program : Program) : Nat → State → List (Nat × Nat)
  | 0, _ => []
  | steps + 1, state =>
    jumpMade program state ++
      match step program state with
      | .running next => jumpsMade program steps next
      | _ => []

theorem jumpsMade_succ (steps : Nat) {state next : State}
    (h : step program state = .running next) :
    jumpsMade program (steps + 1) state =
      jumpMade program state ++ jumpsMade program steps next := by
  rw [jumpsMade, h]

/-- What jumps add up to if each one counts the difference of the cells of its two brackets. -/
def drift (cell : Nat → Int) (jumps : List (Nat × Nat)) : Int :=
  (jumps.map fun jump => cell jump.1 - cell jump.2).sum

@[simp] theorem drift_nil (cell : Nat → Int) : drift cell [] = 0 := rfl

@[simp] theorem drift_append (cell : Nat → Int) (first second : List (Nat × Nat)) :
    drift cell (first ++ second) = drift cell first + drift cell second := by
  simp [drift]

theorem drift_congr {cell other : Nat → Int} {jumps : List (Nat × Nat)}
    (h : ∀ jump ∈ jumps, cell jump.1 = other jump.1 ∧ cell jump.2 = other jump.2) :
    drift cell jumps = drift other jumps := by
  rw [drift, List.map_congr_left fun jump hjump => by rw [(h jump hjump).1, (h jump hjump).2],
    drift]

/-- Jumps between cells that the ring cannot tell apart do not count. -/
theorem drift_modEq_zero {cell : Nat → Int} {jumps : List (Nat × Nat)} {size : Int}
    (h : ∀ jump ∈ jumps, cell jump.1 ≡ cell jump.2 [ZMOD size]) :
    drift cell jumps ≡ 0 [ZMOD size] := by
  induction jumps with
  | nil => exact Int.ModEq.rfl
  | cons jump rest ih =>
    rw [List.forall_mem_cons] at h
    have hjump : cell jump.1 - cell jump.2 ≡ 0 [ZMOD size] := by
      rw [← sub_self (cell jump.2)]
      exact h.1.sub_right _
    exact hjump.add (ih h.2)

/-! ## Steps and runs -/

theorem offset_behind_bracket (h : Program.ofCode? code = some program) {p : Nat} {op : Op}
    (hop : program.ops[p]? = some op) (hbracket : op.bracket? ≠ none) :
    offset code (p + 1) = offset code p := by
  rw [ops_of_ofCode? h, List.getElem?_toArray] at hop
  rw [offset_succ hop, Op.displacement_of_bracket hbracket, Int.add_zero]

theorem jumpMade_eq {s t : Snapshot} {p q : Nat}
    (hstep : step program (s.stateAt p) = .running (t.stateAt q)) :
    jumpMade program (s.stateAt p) = if q = p + 1 then [] else [(p, q - 1)] := by
  rw [jumpMade, hstep]
  rfl

/-- What a step does to the head, and what jump it makes. A jump leads from a bracket behind its
partner, which is a bracket too, so neither end of it displaces the head. -/
theorem head_of_step (h : Program.ofCode? code = some program) {s t : Snapshot} {p q : Nat}
    (hstep : step program (s.stateAt p) = .running (t.stateAt q)) :
    (t.tape.head : Int) + offset code p ≡
        s.tape.head + offset code q + drift (offset code) (jumpMade program (s.stateAt p))
          [ZMOD s.tape.size] ∧
      ∀ jump ∈ jumpMade program (s.stateAt p), program.jumps.partner? jump.1 = some jump.2 := by
  rw [jumpMade_eq hstep]
  rcases step_forms h s p with ⟨c, hop, hc⟩ | ⟨op, partner, hop, hbracket, hpartner, hb | hb⟩ |
    ⟨-, hhalt⟩
  · obtain ⟨rfl, rfl⟩ := stateAt_inj (Progress.running.inj (hstep.symm.trans hc))
    rw [ops_of_ofCode? h, List.getElem?_toArray] at hop
    rw [if_pos rfl, drift_nil, Int.add_zero, offset_succ hop, add_comm (offset code p), ← add_assoc]
    exact ⟨(head_apply c s).add_right _, fun _ hmem => absurd hmem List.not_mem_nil⟩
  · obtain ⟨rfl, rfl⟩ := stateAt_inj (Progress.running.inj (hstep.symm.trans hb))
    rw [if_pos rfl, drift_nil, Int.add_zero, offset_behind_bracket h hop hbracket]
    exact ⟨Int.ModEq.rfl, fun _ hmem => absurd hmem List.not_mem_nil⟩
  · obtain ⟨rfl, rfl⟩ := stateAt_inj (Progress.running.inj (hstep.symm.trans hb))
    obtain ⟨other, hother, hotherBracket⟩ := bracket_of_partner? h hpartner
    rw [offset_behind_bracket h hother hotherBracket, Nat.add_sub_cancel]
    split
    · next hsame =>
      rw [Nat.add_right_cancel hsame, drift_nil, Int.add_zero]
      exact ⟨Int.ModEq.rfl, fun _ hmem => absurd hmem List.not_mem_nil⟩
    · refine ⟨?_, List.forall_mem_singleton.2 hpartner⟩
      simp only [drift, List.map_cons, List.map_nil, List.sum_cons, List.sum_nil, add_zero]
      rw [add_assoc, add_sub_cancel]
  · cases hhalt.symm.trans hstep

/-- **The head follows from the code and the jumps.** Wherever a run comes to, its head is as far
from where it was at the start as the operations between the two places displace it, and as its
jumps make it drift; and every jump is made from a bracket to its partner. -/
theorem head_of_advance (h : Program.ofCode? code = some program) {s t : Snapshot}
    {steps p q : Nat} (hadvance : advance program steps (s.stateAt p) = .running (t.stateAt q)) :
    (t.tape.head : Int) + offset code p ≡
        s.tape.head + offset code q +
          drift (offset code) (jumpsMade program steps (s.stateAt p)) [ZMOD s.tape.size] ∧
      ∀ jump ∈ jumpsMade program steps (s.stateAt p),
        program.jumps.partner? jump.1 = some jump.2 := by
  induction steps generalizing s p with
  | zero =>
    obtain ⟨rfl, rfl⟩ := stateAt_inj (Progress.running.inj hadvance)
    rw [jumpsMade, drift_nil, Int.add_zero]
    exact ⟨Int.ModEq.rfl, fun _ hmem => absurd hmem List.not_mem_nil⟩
  | succ steps ih =>
    cases hstep : step program (s.stateAt p) with
    | running next =>
      obtain ⟨u, r, rfl, hsize⟩ := exists_snapshot_of_step h hstep
      rw [advance, hstep] at hadvance
      obtain ⟨hfirst, hpartner⟩ := head_of_step h hstep
      obtain ⟨hrest, hpartners⟩ := ih hadvance
      rw [hsize] at hrest
      rw [jumpsMade_succ steps hstep, drift_append]
      refine ⟨?_, List.forall_mem_append.2 ⟨hpartner, hpartners⟩⟩
      -- the place between the two parts of the run is on both sides of the sum
      refine Int.ModEq.add_right_cancel' (u.tape.head + offset code r) ?_
      convert hfirst.add hrest using 1 <;> omega
    | halted | failed =>
      rw [advance, hstep] at hadvance
      cases hadvance

end Machine

end TapeCompiler
