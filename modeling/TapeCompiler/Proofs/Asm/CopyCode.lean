import TapeCompiler.Proofs.Asm.BulkCopy
import TapeCompiler.Proofs.Asm.EncodeRuns
/-!
# The code of a copy

A copy is machine code that takes its source to nothing one unit at a time and adds every unit to
each target. However far the operands reach round the ring, each cell ends with the source added
once for every target that falls on it (`encodeCopy_adds`), as long as none falls on the source.
One target there puts back what a round takes away, and then the code runs for ever.
-/
namespace TapeCompiler

/-! ## Operands on a ring -/

namespace Tape

/-- The cell that an operand names: so many cells behind the head, round the ring. -/
def place (tape : Tape) (operand : Nat) : Nat := (tape.head + operand) % tape.size

/-- How many of the operands name the cell. -/
def hits (tape : Tape) (operands : List Nat) (cell : Nat) : Nat :=
  operands.countP fun operand => tape.place operand == cell

end Tape

namespace Snapshot

theorem place_operand (s : Snapshot) (operand : Nat) : s.place operand = s.tape.place operand := by
  rw [place, ← Int.natCast_add, ← Int.natCast_emod, Int.toNat_natCast]
  rfl

theorem hits_operands (s : Snapshot) (operands : List Nat) (cell : Nat) :
    s.hits operands cell = s.tape.hits operands cell := by
  simp only [hits, Tape.hits, place_operand]

end Snapshot

namespace Asm

open Snapshot

variable {s t : Snapshot} {source : Nat} {targets : List Nat}

/-! ## Copies that end -/

/-- What a copy makes of a tape. -/
structure Copied (source : Nat) (targets : List Nat) (before after : Tape) : Prop where
  head_eq : after.head = before.head
  size_eq : after.size = before.size
  /-- Nothing is left in the source. -/
  cleared : after.cells[before.place source]? = some 0
  /-- Every other cell has the source added, modulo 256, once for each target that names it. -/
  added : ∀ (cell : Nat) (value byte : UInt8), cell ≠ before.place source →
    before.cells[before.place source]? = some value → before.cells[cell]? = some byte →
    after.cells[cell]? = some (.ofNat (byte.toNat + value.toNat * before.hits targets cell))

theorem copied_bulkCopy (source : Nat) (targets : List Nat) (s : Snapshot) :
    Copied source targets s.tape (bulkCopy source targets s).tape where
  head_eq := (frame_addAll targets (s.value source) s).1
  size_eq := (size_change _ source _).trans (size_addAll targets _ s)
  cleared := by
    rw [← place_operand, cells_bulkCopy, if_pos rfl, cells_place]
    rfl
  added := by
    intro cell value byte hcell hvalue hbyte
    rw [← place_operand] at hcell hvalue
    rw [cells_bulkCopy, if_neg (Ne.symm hcell), hbyte, value_eq_of hvalue, hits_operands]
    simp [UInt8.ofNat_add, UInt8.ofNat_mul, UInt8.mul_comm]

/-! ## Copies that do not end -/

/-- One target on the source keeps the source as it is in every round. -/
theorem not_acts_copy (hhits : s.hits targets (s.place source) = 1) (hvalue : s.value source ≠ 0) :
    ¬(Instr.copy source targets).Acts s t := by
  refine Repeat.not_of_kept
    (P := fun s => s.hits targets (s.place source) = 1 ∧ s.value source ≠ 0) ?_ ?_ ⟨hhits, hvalue⟩
  · exact fun s h => h.2
  · rintro s _ ⟨hhits, hvalue⟩ rfl
    constructor
    · rwa [place_copyRound, hits_copyRound]
    · rw [value_copyRound, hhits]
      simpa using hvalue

/-! ## The code on the machine -/

/-- **A copy adds.** The code of a copy, started with the head on any cell of any tape, halts with
the head where it was, nothing read and nothing written: the source is empty and has been added to
every other cell as often as a target names it. This is so when no target names the source cell. If
one does, and the source is not empty, the code never halts. -/
theorem encodeCopy_adds (source : Nat) (targets : List Nat) :
    ∃ program, Machine.Program.ofCode? (encodeCopy source targets) = some program ∧
      ∀ (tape : Tape) (input : List UInt8) (output : Array UInt8), tape.head < tape.size →
        ((∀ target ∈ targets, tape.place target ≠ tape.place source) →
          ∃ steps after, Machine.advance program steps ⟨0, tape, input, output⟩ =
              .halted ⟨(encodeCopy source targets).length, after, input, output⟩ ∧
            Copied source targets tape after) ∧
        (tape.hits targets (tape.place source) = 1 → tape.cells[tape.place source]? ≠ some 0 →
          ∀ steps, ∃ state,
            Machine.advance program steps ⟨0, tape, input, output⟩ = .running state) := by
  have hnested : Nested (encodeCopy source targets) :=
    @nested_encode (.copy source targets) rfl
  obtain ⟨program, hprogram, hruns⟩ := Machine.halted_iff_of_wellNested hnested
  refine ⟨program, hprogram, fun tape input output hhead => ?_⟩
  let s : Snapshot := ⟨tape, input, output, hhead⟩
  have hcode (t : Snapshot) : Executes machineMeaning ((encodeCopy source targets).map Op.piece) s t ↔
      (Instr.copy source targets).Acts s t := codeRuns_copy
  obtain ⟨hnofault, hhalts⟩ := hruns s
  constructor
  · intro hapart
    have hapart' : Apart s source targets := fun target hmem => by
      rw [place_operand, place_operand]
      exact hapart target hmem
    have hend := (hcode (bulkCopy source targets s)).2 ((acts_copy_iff hapart').2 rfl)
    obtain ⟨steps, hsteps⟩ := (hhalts _).2 ⟨_, rfl, hend⟩
    obtain ⟨-, hinput, houtput, -⟩ := frame_addAll targets (s.value source) s
    refine ⟨steps, _, ?_, copied_bulkCopy source targets s⟩
    refine hsteps.trans (congrArg Machine.Progress.halted ?_)
    simp only [stateAt, Machine.State.mk.injEq, true_and]
    exact ⟨hinput, houtput⟩
  · intro hhits hvalue steps
    have hvalue' : s.value source ≠ 0 := by
      intro hzero
      refine hvalue ?_
      have hcell := s.cells_place source
      rwa [place_operand, hzero] at hcell
    cases hprogress : Machine.advance program steps ⟨0, tape, input, output⟩ with
    | running state => exact ⟨state, rfl⟩
    | failed fault state => exact absurd hprogress (hnofault steps fault state)
    | halted final =>
      obtain ⟨t, -, ht⟩ := (hhalts final).1 ⟨steps, hprogress⟩
      refine absurd ((hcode t).1 ht) (not_acts_copy ?_ hvalue')
      rw [hits_operands, place_operand]
      exact hhits

/-- On a ring of three cells the operand 4 is the cell 1, and the operand 3 the cell 0: the 2 in
the source is added three times to the cell 0, past 255, and once to the cell 2. With the operand 1
among the targets the same copy never ends. -/
theorem encodeCopy_adds_round_ring :
    (∃ program steps after,
      Machine.Program.ofCode? (encodeCopy 4 [0, 2, 3, 3]) = some program ∧
        Machine.advance program steps ⟨0, ⟨#[250, 2, 7], 0⟩, [65], #[66]⟩ =
          .halted ⟨(encodeCopy 4 [0, 2, 3, 3]).length, after, [65], #[66]⟩ ∧
        after.cells[0]? = some 0 ∧ after.cells[1]? = some 0 ∧ after.cells[2]? = some 9) ∧
      ∃ program, Machine.Program.ofCode? (encodeCopy 4 [0, 1]) = some program ∧
        ∀ steps, ∃ state,
          Machine.advance program steps ⟨0, ⟨#[250, 2, 7], 0⟩, [65], #[66]⟩ = .running state := by
  constructor
  · obtain ⟨program, hprogram, hruns⟩ := encodeCopy_adds 4 [0, 2, 3, 3]
    obtain ⟨steps, after, hsteps, hcopied⟩ :=
      (hruns ⟨#[250, 2, 7], 0⟩ [65] #[66] (by decide)).1 (by decide)
    exact ⟨program, steps, after, hprogram, hsteps, hcopied.added 0 2 250 (by decide) rfl rfl,
      hcopied.cleared, hcopied.added 2 2 7 (by decide) rfl rfl⟩
  · obtain ⟨program, hprogram, hruns⟩ := encodeCopy_adds 4 [0, 1]
    exact ⟨program, hprogram,
      (hruns ⟨#[250, 2, 7], 0⟩ [65] #[66] (by decide)).2 (by decide) (by decide)⟩

end Asm

end TapeCompiler
