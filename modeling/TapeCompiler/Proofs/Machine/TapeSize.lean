import Mathlib.Tactic.IntervalCases
import TapeCompiler.Proofs.Machine.Reachable
/-!
# What a run sees of the length of its tape

The length of the tape counts only where the head goes over one of its ends. A run that never does
so takes the same steps on a tape that has more cells behind the last one, and leaves these cells as
they are (`advance_extend`); so on every longer tape it gives the same answer
(`run_of_staysOnTape`).
-/
namespace TapeCompiler

/-! ## Longer tapes -/

namespace Tape

/-- The tape with so many zeros behind its last cell. -/
def extend (extra : Nat) : Tape → Tape
  | ⟨cells, head⟩ => ⟨cells ++ Array.replicate extra 0, head⟩

variable {t : Tape} (extra : Nat)

@[simp] theorem head_extend : (t.extend extra).head = t.head := rfl

@[simp] theorem size_extend : (t.extend extra).size = t.size + extra := by
  simp [extend, size]

theorem extend_blank (size : Nat) : (blank size).extend extra = blank (size + extra) := by
  simp [extend, blank, Array.replicate_append_replicate]

theorem update_extend (h : t.head < t.size) (f : UInt8 → UInt8) :
    (t.extend extra).update f = (t.update f).extend extra := by
  obtain ⟨cells, head⟩ := t
  simp only [size] at h
  simp only [extend, update, mk.injEq, and_true]
  apply Array.ext_getElem?
  intro i
  rw [Array.getElem?_modify, Array.getElem?_append, Array.getElem?_append, Array.size_modify,
    Array.getElem?_modify]
  by_cases hi : i < cells.size
  · simp only [if_pos hi]
  · have hne : head ≠ i := by omega
    simp only [if_neg hi, if_neg hne]

/-- Going right is the same on the longer tape where it does not end at the first cell. -/
theorem moveRight_extend (h : t.head + 1 < t.size) :
    (t.extend extra).moveRight = t.moveRight.extend extra := by
  obtain ⟨cells, head⟩ := t
  have hshorter : head + 1 < cells.size := h
  have hlonger : head + 1 < (cells ++ Array.replicate extra 0).size := by
    rw [Array.size_append]
    exact Nat.lt_add_right _ hshorter
  rw [extend, moveRight, if_pos hlonger, moveRight, if_pos hshorter, extend]

/-- Going left is the same on the longer tape where it does not begin at the first cell. -/
theorem moveLeft_extend (h : t.head ≠ 0) :
    (t.extend extra).moveLeft = t.moveLeft.extend extra := by
  obtain ⟨cells, head⟩ := t
  have hne : ¬head = 0 := h
  rw [extend, moveLeft, if_neg hne, moveLeft, if_neg hne, extend]

end Tape

/-- The snapshot with so many zeros behind the last cell of its tape. -/
def Snapshot.extend (extra : Nat) (s : Snapshot) : Snapshot :=
  { s with
    tape := s.tape.extend extra
    head_lt := by
      rw [Tape.head_extend, Tape.size_extend]
      exact Nat.lt_add_right extra s.head_lt }

theorem Snapshot.byte_extend (extra : Nat) (s : Snapshot) : (s.extend extra).byte = s.byte :=
  Array.getElem_append_left s.head_lt

/-- A command does the same on the longer tape if it does not take the head over an end. -/
theorem Command.apply_extend (extra : Nat) {c : Command} {s : Snapshot}
    (hright : c = .right → s.tape.head + 1 < s.tape.size) (hleft : c = .left → s.tape.head ≠ 0) :
    c.apply (s.extend extra) = (c.apply s).extend extra := by
  cases c with
  | increment | decrement | read =>
    exact Snapshot.ext_of (Tape.update_extend extra s.head_lt _) rfl rfl
  | right => exact Snapshot.ext_of (Tape.moveRight_extend extra (hright rfl)) rfl rfl
  | left => exact Snapshot.ext_of (Tape.moveLeft_extend extra (hleft rfl)) rfl rfl
  | write =>
    refine Snapshot.ext_of rfl rfl ?_
    rw [Command.apply, Command.apply, s.byte_extend]
    rfl

namespace Machine

def State.extend (extra : Nat) (state : State) : State :=
  { state with tape := state.tape.extend extra }

def Progress.extend (extra : Nat) : Progress → Progress
  | running state => .running (state.extend extra)
  | halted state => .halted (state.extend extra)
  | failed fault state => .failed fault (state.extend extra)

/-! ## Runs on longer tapes -/

/-- The next step takes the head from the last cell to the first one or back. -/
def AtEdge (program : Program) (state : State) : Prop :=
  program.ops[state.counter]? = some .right ∧ state.tape.head + 1 = state.tape.size ∨
    program.ops[state.counter]? = some .left ∧ state.tape.head = 0

instance (program : Program) (state : State) : Decidable (AtEdge program state) :=
  inferInstanceAs (Decidable (_ ∧ _ ∨ _ ∧ _))

variable {program : Program} {code : List Op} {s : Snapshot} {p : Nat}

theorem step_extend (extra : Nat) (h : Program.ofCode? code = some program)
    (hedge : ¬AtEdge program (s.stateAt p)) :
    step program ((s.extend extra).stateAt p) = (step program (s.stateAt p)).extend extra := by
  have hlt := s.head_lt
  simp only [AtEdge, Snapshot.stateAt, not_or, not_and] at hedge
  cases hop : program.ops[p]? with
  | none =>
    simp only [step, Snapshot.stateAt, hop]
    rfl
  | some op =>
    rw [hop] at hedge
    rcases command_or_bracket op with ⟨c, rfl⟩ | hbracket
    · have happly : c.apply (s.extend extra) = (c.apply s).extend extra := by
        apply Command.apply_extend
        · rintro rfl
          have := hedge.1 rfl
          omega
        · rintro rfl
          exact hedge.2 rfl
      rw [step_command hop, step_command hop, happly]
      rfl
    · obtain ⟨q, hq⟩ := exists_partner_of_bracket h hop hbracket
      cases op with
      | openLoop =>
        rw [step_openLoop hop hq, step_openLoop hop hq, s.byte_extend]
        rfl
      | closeLoop =>
        rw [step_closeLoop hop hq, step_closeLoop hop hq, s.byte_extend]
        rfl
      | increment | decrement | right | left | read | write => exact absurd rfl hbracket

/-- **More cells behind the last one do not count.** A run that never goes over an end of its tape
takes the same steps on the longer one. -/
theorem advance_extend (extra : Nat) (h : Program.ofCode? code = some program)
    (hstays : ∀ state, Reaches program (s.stateAt p) state → ¬AtEdge program state) (steps : Nat) :
    advance program steps ((s.extend extra).stateAt p) =
      (advance program steps (s.stateAt p)).extend extra := by
  induction steps generalizing s p with
  | zero => rfl
  | succ steps ih =>
    rw [advance, advance, step_extend extra h (hstays _ (.refl _))]
    cases hstep : step program (s.stateAt p) with
    | running next =>
      obtain ⟨t, q, rfl, -⟩ := exists_snapshot_of_step h hstep
      exact ih fun state hreach => hstays state (.step hstep hreach)
    | halted | failed => rfl

/-- On the longer tape the run does not come to its ends either. -/
theorem not_atEdge_of_reaches_extend {extra : Nat} (h : Program.ofCode? code = some program)
    (hstays : ∀ state, Reaches program (s.stateAt p) state → ¬AtEdge program state) {state : State}
    (hreach : Reaches program ((s.extend extra).stateAt p) state) : ¬AtEdge program state := by
  obtain ⟨steps, hsteps⟩ := hreach
  rw [advance_extend extra h hstays] at hsteps
  cases hshorter : advance program steps (s.stateAt p) with
  | running other =>
    rw [hshorter] at hsteps
    cases hsteps
    have hedge := hstays other ⟨steps, hshorter⟩
    obtain ⟨t, q, rfl, -⟩ := exists_snapshot_of_advance h hshorter
    have hlt := t.head_lt
    simp only [AtEdge, State.extend, Snapshot.stateAt, Tape.head_extend, Tape.size_extend] at hedge ⊢
    rintro (⟨hop, hright⟩ | hleft)
    · exact hedge (.inl ⟨hop, by omega⟩)
    · exact hedge (.inr hleft)
  | halted | failed =>
    rw [hshorter] at hsteps
    cases hsteps

/-! ## Whole runs -/

/-- On a fresh tape of so many cells the run never goes right from the last cell, nor left from the
first one. -/
def StaysOnTape (code : List Op) (input : List UInt8) (size : Nat) : Prop :=
  ∀ program start, load code input size = .ok (program, start) →
    ∀ state, Reaches program start state → ¬AtEdge program state

/-- A run on a fresh tape that halts is that of a program. -/
theorem exists_halted_of_run {input : List UInt8} {size steps : Nat} {outcome : Outcome}
    (h : run steps code input size = some (.ok outcome)) :
    ∃ program final, Program.ofCode? code = some program ∧
      advance program steps (.initial (.blank size) input) = .halted final ∧
        outcome = ⟨final.output, final.tape.cells⟩ := by
  cases hprogram : Program.ofCode? code with
  | none =>
    rw [run, load, hprogram] at h
    cases h
  | some program =>
    rw [run, load_eq_ok hprogram] at h
    simp only at h
    cases hadvance : advance program steps (.initial (.blank size) input) with
    | halted final =>
      rw [hadvance] at h
      cases h
      exact ⟨program, final, rfl, hadvance, rfl⟩
    | running | failed =>
      rw [hadvance] at h
      cases h

/-- **A run that stays on its tape does not know how long it is.** If a run halts and its head never
goes over an end of the tape, then on every longer tape it halts as well, after as many steps: with
the same output, with zeros behind what was its memory, and without going over an end there. -/
theorem run_of_staysOnTape (text : String) (input : List UInt8) (size steps : Nat)
    (outcome : Outcome) (hsize : 0 < size)
    (h : run steps (readCode text) input size = some (.ok outcome))
    (hstays : StaysOnTape (readCode text) input size) (larger : Nat) (hlarger : size ≤ larger) :
    run steps (readCode text) input larger = some (.ok ⟨outcome.output,
        outcome.memory ++ Array.replicate (larger - size) 0⟩) ∧
      StaysOnTape (readCode text) input larger := by
  obtain ⟨program, final, hprogram, hhalted, rfl⟩ := exists_halted_of_run h
  obtain ⟨extra, rfl⟩ := Nat.exists_eq_add_of_le hlarger
  let s : Snapshot := .start (Array.replicate size 0) (by simpa using hsize) input
  have hstart : State.initial (.blank (size + extra)) input = (s.extend extra).stateAt 0 := by
    rw [← Tape.extend_blank]
    rfl
  have hedge := hstays program (s.stateAt 0) (load_eq_ok hprogram input size)
  constructor
  · rw [run, load_eq_ok hprogram, hstart]
    simp only
    rw [advance_extend extra hprogram hedge, show s.stateAt 0 = .initial (.blank size) input from rfl,
      hhalted, Nat.add_sub_cancel_left]
    rfl
  · rintro _ _ hload state hreach
    rw [load_eq_ok hprogram, hstart] at hload
    cases hload
    exact not_atEdge_of_reaches_extend hprogram hedge hreach

/-- A state on the way to a halt is reached in fewer steps. -/
theorem lt_of_halted {a b final : State} {m n : Nat} (hhalted : advance program n a = .halted final)
    (h : advance program m a = .running b) : m < n := by
  refine Nat.lt_of_not_le fun hle => ?_
  obtain ⟨k, rfl⟩ := Nat.exists_eq_add_of_le hle
  rw [advance_add, hhalted] at h
  cases h

/-- Moves what it reads one cell on. -/
theorem run_of_staysOnTape_transfer :
    run 13 (readCode ",[>+<-]") [2] 2 = some (.ok ⟨#[], #[0, 2]⟩) ∧
      StaysOnTape (readCode ",[>+<-]") [2] 2 ∧
      run 13 (readCode ",[>+<-]") [2] 4 = some (.ok ⟨#[], #[0, 2, 0, 0]⟩) := by
  have hrun : run 13 (readCode ",[>+<-]") [2] 2 = some (.ok ⟨#[], #[0, 2]⟩) := rfl
  have hstays : StaysOnTape (readCode ",[>+<-]") [2] 2 := by
    rintro program start hload state ⟨steps, hsteps⟩
    obtain ⟨_, _, hprogram, hhalted, -⟩ := exists_halted_of_run hrun
    rw [load_eq_ok hprogram] at hload
    cases hload
    have hlt := lt_of_halted hhalted hsteps
    cases hprogram
    interval_cases steps <;> cases hsteps <;> decide
  exact ⟨hrun, hstays,
    (run_of_staysOnTape ",[>+<-]" [2] 2 13 _ (by decide) hrun hstays 4 (by decide)).1⟩

end Machine

end TapeCompiler
