import TapeCompiler.Proofs.Machine.InputRead
import TapeCompiler.Proofs.Machine.Reachable
/-!
# Runs without faults

On a tape with cells the head never leaves them, whatever the code and the bytes on the tape do, and
no bracket is without a partner; so no step of a balanced code fails. On a tape without cells every
operation but a move does. Which of the two a run meets is decided by the code alone
(`inBounds_of_balanced`).
-/
namespace TapeCompiler.Machine

variable {program : Program} {code : List Op}

/-! ## A tape with cells -/

/-- What holds wherever a run comes to that began with `size` cells and this input, of which
`position` bytes are used up. -/
structure InBounds (program : Program) (size : Nat) (input : List UInt8) (position : Nat)
    (state : State) : Prop where
  head_lt : state.tape.head < size
  size_eq : state.tape.size = size
  cells_le : ∀ cell ∈ state.tape.cells, cell.toNat ≤ 255
  position_le : position ≤ input.length
  input_eq : state.input = input.drop position
  /-- A jump would lead to a place in the code. -/
  exists_partner : ∀ op, program.ops[state.counter]? = some op → op.bracket? ≠ none →
    ∃ q < program.ops.size, program.jumps.partner? state.counter = some q

/-- A run uses up its input as far as it reads. -/
theorem input_of_advance {steps : Nat} {state last : State}
    (h : advance program steps state = .running last) :
    last.input = state.input.drop (reads (trace program steps state)) := by
  induction steps generalizing state with
  | zero =>
    cases h
    rfl
  | succ steps ih =>
    cases hstep : step program state with
    | running next =>
      rw [advance_succ steps hstep] at h
      rw [ih h, input_of_step hstep, List.drop_drop, trace_succ steps hstep, reads, reads, reads,
        List.count_append]
    | halted | failed =>
      rw [advance, hstep] at h
      cases h

theorem inBounds_of_advance (h : Program.ofCode? code = some program) (s : Snapshot)
    {steps : Nat} {state : State}
    (hadvance : advance program steps (s.stateAt 0) = .running state) :
    InBounds program s.tape.size s.input
      (min (reads (trace program steps (s.stateAt 0))) s.input.length) state := by
  have hinput := input_of_advance hadvance
  obtain ⟨t, p, rfl, hsize⟩ := exists_snapshot_of_advance h hadvance
  refine ⟨hsize ▸ t.head_lt, hsize, fun cell _ => Nat.le_of_lt_succ cell.toNat_lt,
    Nat.min_le_right _ _, ?_, fun op hop hbracket => ?_⟩
  · rw [hinput]
    rcases Nat.le_total (reads (trace program steps (s.stateAt 0))) s.input.length with hle | hle
    · rw [Nat.min_eq_left hle]
      rfl
    · rw [Nat.min_eq_right hle, List.drop_length]
      exact List.drop_eq_nil_of_le hle
  · obtain ⟨q, hq⟩ := exists_partner_of_bracket h hop hbracket
    obtain ⟨_, hother, -⟩ := bracket_of_partner? h hq
    exact ⟨q, (Array.getElem?_eq_some_iff.1 hother).1, hq⟩

/-! ## A tape without cells -/

/-- A machine without cells, at a position of its code. -/
def cellless (input : List UInt8) (counter : Nat) : State := ⟨counter, ⟨#[], 0⟩, input, #[]⟩

variable {input : List UInt8} {p : Nat} {op : Op}

theorem step_cellless_of_isMove (hop : program.ops[p]? = some op) (hmove : op.IsMove) :
    step program (cellless input p) = .running (cellless input (p + 1)) := by
  rw [step, cellless, hop]
  rcases hmove with rfl | rfl <;> rfl

theorem step_cellless_of_not_isMove (hop : program.ops[p]? = some op) (hmove : ¬op.IsMove) :
    step program (cellless input p) = .failed .noCell (cellless input p) := by
  rw [step, cellless, hop]
  cases op with
  | right => exact absurd (.inl rfl) hmove
  | left => exact absurd (.inr rfl) hmove
  | increment | decrement | openLoop | closeLoop | read | write => rfl

/-- Moves alone bring a machine without cells to the end of its code; the first other operation
stops it. The induction is on the operations that are left. -/
theorem advance_cellless (input : List UInt8) (rest : List Op)
    (hops : ∀ i, program.ops[p + i]? = rest[i]?) :
    ((∀ op ∈ rest, op.IsMove) → ∃ steps, advance program steps (cellless input p) =
        .halted (cellless input (p + rest.length))) ∧
      ((∃ op ∈ rest, ¬op.IsMove) → ∃ steps state,
        advance program steps (cellless input p) = .failed .noCell state) := by
  induction rest generalizing p with
  | nil =>
    refine ⟨fun _ => ⟨1, ?_⟩, fun ⟨_, hmem, _⟩ => absurd hmem List.not_mem_nil⟩
    have hend : program.ops[p]? = none := hops 0
    rw [advance, step, cellless, hend]
    rfl
  | cons op rest ih =>
    have hop : program.ops[p]? = some op := hops 0
    by_cases hmove : op.IsMove
    · have hstep : step program (cellless input p) = .running (cellless input (p + 1)) :=
        step_cellless_of_isMove hop hmove
      obtain ⟨hhalt, hfail⟩ := ih (p := p + 1) fun i => by
        rw [Nat.add_assoc, Nat.add_comm 1 i]
        exact hops (i + 1)
      constructor
      · intro hall
        obtain ⟨steps, hsteps⟩ := hhalt fun other hmem => hall other (List.mem_cons_of_mem op hmem)
        refine ⟨steps + 1, ?_⟩
        rw [advance_succ steps hstep, hsteps, List.length_cons, Nat.add_assoc,
          Nat.add_comm 1 rest.length]
      · rintro ⟨other, hmem, hother⟩
        obtain rfl | hmem := List.mem_cons.1 hmem
        · exact absurd hmove hother
        · obtain ⟨steps, state, hsteps⟩ := hfail ⟨other, hmem, hother⟩
          exact ⟨steps + 1, state, by rw [advance_succ steps hstep, hsteps]⟩
    · refine ⟨fun hall => absurd (hall op List.mem_cons_self) hmove, fun _ =>
        ⟨1, cellless input p, ?_⟩⟩
      rw [advance, step_cellless_of_not_isMove hop hmove]

/-! ## Both -/

/-- **Balanced code runs within bounds.** On a tape with cells, wherever the run comes to: the head is
on a cell, there are as many cells as ever and they hold bytes, no more of the input is used up than
there is, and a bracket that is next has a partner. So no step fails. On a tape without cells the
run halts with nothing written if the code only moves, and otherwise it fails for want of a cell. -/
theorem inBounds_of_balanced (text : String)
    (h : Balanced ((readCode text).map Op.bracket?)) :
    ∃ program, Program.ofCode? (readCode text) = some program ∧
      (∀ (cells : Array UInt8) (input : List UInt8) (steps : Nat), 0 < cells.size →
        (∀ state, advance program steps (.initial ⟨cells, 0⟩ input) = .running state →
          InBounds program cells.size input
            (min (reads (trace program steps (.initial ⟨cells, 0⟩ input))) input.length) state) ∧
        ∀ fault state,
          advance program steps (.initial ⟨cells, 0⟩ input) ≠ .failed fault state) ∧
      ∀ input : List UInt8,
        ((∀ op ∈ readCode text, op.IsMove) → ∃ steps,
          advance program steps (.initial ⟨#[], 0⟩ input) =
            .halted ⟨(readCode text).length, ⟨#[], 0⟩, input, #[]⟩) ∧
        ((∃ op ∈ readCode text, ¬op.IsMove) → ∃ steps state,
          advance program steps (.initial ⟨#[], 0⟩ input) = .failed .noCell state) := by
  obtain ⟨program, hprogram, hruns⟩ :=
    halted_iff_of_wellNested ((wellNested_iff_balanced (readCode text)).2 h)
  refine ⟨program, hprogram, fun cells input steps hcells => ⟨fun state hstate => ?_, ?_⟩,
    fun input => ?_⟩
  · exact inBounds_of_advance hprogram (.start cells hcells input) hstate
  · exact (hruns (.start cells hcells input)).1 steps
  · have hops (i : Nat) : program.ops[0 + i]? = (readCode text)[i]? := by
      rw [ops_of_ofCode? hprogram, List.getElem?_toArray, Nat.zero_add]
    obtain ⟨hhalt, hfail⟩ := advance_cellless input (readCode text) hops
    rw [Nat.zero_add] at hhalt
    exact ⟨hhalt, hfail⟩

/-- Goes round a ring of two cells while there is input; without cells it moves and then fails. -/
theorem inBounds_of_balanced_ring :
    Balanced ((readCode ">,[>,] ring").map Op.bracket?) ∧
      ∃ program, Program.ofCode? (readCode ">,[>,] ring") = some program ∧
        (∃ state, advance program 6 (.initial ⟨#[7, 9], 0⟩ [65, 66]) = .running state ∧
          InBounds program 2 [65, 66] 2 state) ∧
        ∃ steps state, advance program steps (.initial ⟨#[], 0⟩ [65]) = .failed .noCell state := by
  have hbalanced : Balanced ((readCode ">,[>,] ring").map Op.bracket?) := by decide
  refine ⟨hbalanced, ?_⟩
  obtain ⟨program, hprogram, hcells, hcellless⟩ := inBounds_of_balanced ">,[>,] ring" hbalanced
  refine ⟨program, hprogram, ?_, (hcellless [65]).2 (by decide)⟩
  have hinBounds := (hcells #[7, 9] [65, 66] 6 (by decide)).1
  cases hprogram
  exact ⟨_, rfl, hinBounds _ rfl⟩

end TapeCompiler.Machine
