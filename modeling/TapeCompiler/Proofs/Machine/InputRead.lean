import Mathlib.Data.List.GetD
import TapeCompiler.Machine.Run
/-!
# What a run sees of its input

The machine takes the input byte by byte and, at its end, takes zeros. So the bytes that a run
depends on are those taken by the reading operations it carries out, as many as there are in its
trace, each of them a zero where the input has none (`run_of_agreeOn`). Two runs on inputs that
agree that far stay in states which differ in nothing but the input still to be read
(`advance_withInput`).
-/
namespace TapeCompiler.Machine

/-! ## What has been carried out -/

/-- The operation that a step carries out, none when the run is over or the step fails. -/
def performed (program : Program) (state : State) : List Op :=
  match step program state with
  | .running _ => program.ops[state.counter]?.toList
  | _ => []

/-- All operations that `steps` steps carry out, in order. -/
def trace (program : Program) : Nat → State → List Op
  | 0, _ => []
  | steps + 1, state =>
    performed program state ++
      match step program state with
      | .running next => trace program steps next
      | _ => []

/-- How many bytes operations take from the input. -/
abbrev reads (ops : List Op) : Nat := ops.count .read

/-- The operations that a run on a fresh tape carries out. -/
def runTrace (steps : Nat) (code : List Op) (input : List UInt8) (tapeSize : Int) : List Op :=
  match load code input tapeSize with
  | .error _ => []
  | .ok (program, state) => trace program steps state

/-! ## Inputs that agree -/

/-- Two inputs, each continued by zeros, have the same first bytes. -/
def AgreeOn (count : Nat) (input other : List UInt8) : Prop :=
  ∀ i < count, input.getD i 0 = other.getD i 0

instance (count : Nat) (input other : List UInt8) : Decidable (AgreeOn count input other) :=
  inferInstanceAs (Decidable (∀ i < count, input.getD i 0 = other.getD i 0))

namespace AgreeOn

variable {m n : Nat} {input other : List UInt8}

theorem head (h : AgreeOn (n + 1) input other) : input.headD 0 = other.headD 0 := by
  have hfirst := h 0 (Nat.succ_pos n)
  cases input <;> cases other <;> exact hfirst

theorem take (h : AgreeOn (m + n) input other) : AgreeOn m input other := fun i hi =>
  h i (Nat.lt_of_lt_of_le hi (Nat.le_add_right m n))

theorem drop (h : AgreeOn (m + n) input other) : AgreeOn n (input.drop m) (other.drop m) := by
  intro i hi
  have hlater := h (m + i) (Nat.add_lt_add_left hi m)
  simpa only [List.getD_eq_getElem?_getD, List.getElem?_drop] using hlater

/-- Zeros behind an input add nothing to it. -/
theorem append_zeros (count zeros : Nat) (input : List UInt8) :
    AgreeOn count input (input ++ List.replicate zeros 0) := by
  intro i _
  rcases Nat.lt_or_ge i input.length with hi | hi
  · rw [List.getD_append _ _ _ _ hi]
  · rw [List.getD_append_right _ _ _ _ hi, List.getD_eq_default _ _ hi]
    rcases Nat.lt_or_ge (i - input.length) zeros with hz | hz
    · rw [List.getD_replicate 0 hz]
    · rw [List.getD_eq_default _ _ (by simpa using hz)]

/-- What stands behind the bytes looked at may be anything. -/
theorem take_append {count : Nat} (hcount : count ≤ input.length) (rest : List UInt8) :
    AgreeOn count input (input.take count ++ rest) := by
  intro i hi
  have htake : i < (input.take count).length := by
    rw [List.length_take]
    omega
  rw [List.getD_append _ _ _ _ htake]
  simp only [List.getD_eq_getElem?_getD, List.getElem?_take, if_pos hi]

end AgreeOn

/-! ## States that differ in their input -/

/-- The same state with other input to read. -/
def State.withInput (state : State) (input : List UInt8) : State := { state with input }

def Progress.withInput : Progress → List UInt8 → Progress
  | running state, input => .running (state.withInput input)
  | halted state, input => .halted (state.withInput input)
  | failed fault state, input => .failed fault (state.withInput input)

@[simp] theorem Progress.answer?_withInput (progress : Progress) (input : List UInt8) :
    (progress.withInput input).answer? = progress.answer? := by
  cases progress <;> rfl

variable {program : Program} {state next : State} {other : List UInt8}

@[simp] theorem State.counter_withInput (state : State) (input : List UInt8) :
    (state.withInput input).counter = state.counter := rfl

theorem performed_of_some {op : Op} (hop : program.ops[state.counter]? = some op) :
    performed program state = match execute program.jumps op state with
      | .running _ => [op]
      | _ => [] := by
  simp only [performed, step, hop]
  rfl

/-- Only the reading operation looks at the input. -/
theorem execute_withInput {jumps : JumpTable} {op : Op} (hop : op ≠ .read) (state : State)
    (other : List UInt8) :
    execute jumps op (state.withInput other) = (execute jumps op state).withInput other := by
  obtain ⟨counter, tape, input, output⟩ := state
  cases op with
  | read => exact absurd rfl hop
  | right | left => rfl
  | increment | decrement | write =>
    simp only [execute, State.withInput]
    cases tape.current? <;> rfl
  | openLoop | closeLoop =>
    simp only [execute, State.withInput, jump]
    cases tape.current? with
    | none => rfl
    | some byte =>
      by_cases hbyte : byte = 0 <;> cases jumps.partner? counter <;> simp only [hbyte] <;> rfl

/-- **One step sees only the byte that it takes.** Where it takes one, the first bytes of the two
inputs are equal, and both lose it. -/
theorem step_withInput (h : AgreeOn (reads (performed program state)) state.input other) :
    step program (state.withInput other) =
      (step program state).withInput (other.drop (reads (performed program state))) := by
  cases hop : program.ops[state.counter]? with
  | none => simp [performed, step, hop, Progress.withInput]
  | some op =>
    have hstep : step program (state.withInput other) =
        execute program.jumps op (state.withInput other) := by
      rw [step, State.counter_withInput, hop]
    rw [hstep, show step program state = execute program.jumps op state by rw [step, hop]]
    rw [performed_of_some hop] at h ⊢
    by_cases hread : op = .read
    · subst hread
      obtain ⟨counter, tape, input, output⟩ := state
      cases hcell : tape.current? with
      | none => simp only [execute, State.withInput, hcell]; rfl
      | some byte =>
        simp only [execute, State.withInput, hcell] at h ⊢
        rw [← h.head]
        simp [Progress.withInput, State.withInput]
    · rw [execute_withInput hread]
      cases execute program.jumps op state <;> simp [reads, hread]

/-- What a step takes is gone from the input. -/
theorem input_of_step (h : step program state = .running next) :
    next.input = state.input.drop (reads (performed program state)) := by
  have hsame : step program state =
      (step program state).withInput (state.input.drop (reads (performed program state))) :=
    step_withInput fun _ _ => rfl
  rw [h] at hsame
  injection hsame with hnext
  exact congrArg State.input hnext

theorem performed_withInput (h : AgreeOn (reads (performed program state)) state.input other) :
    performed program (state.withInput other) = performed program state := by
  rw [performed, step_withInput h, performed]
  cases step program state <;> rfl

/-! ## Runs -/

theorem trace_succ (steps : Nat) (hstep : step program state = .running next) :
    trace program (steps + 1) state = performed program state ++ trace program steps next := by
  rw [trace, hstep]

theorem advance_succ (steps : Nat) (hstep : step program state = .running next) :
    advance program (steps + 1) state = advance program steps next := by
  rw [advance, hstep]

/-- **A run sees only the bytes that it takes.** On an input that agrees with its own as far as it
reads, it goes through the same steps, into a state that differs in the rest of the input alone. -/
theorem advance_withInput (steps : Nat)
    (h : AgreeOn (reads (trace program steps state)) state.input other) :
    advance program steps (state.withInput other) =
        (advance program steps state).withInput (other.drop (reads (trace program steps state))) ∧
      trace program steps (state.withInput other) = trace program steps state := by
  induction steps generalizing state other with
  | zero => exact ⟨rfl, rfl⟩
  | succ steps ih =>
    have hfirst : AgreeOn (reads (performed program state)) state.input other := by
      rw [trace, reads, List.count_append] at h
      exact h.take
    have hother := step_withInput hfirst
    cases hstep : step program state with
    | running next =>
      rw [hstep] at hother
      rw [trace_succ steps hstep, reads, List.count_append] at h ⊢
      have hrest := h.drop
      rw [← input_of_step hstep] at hrest
      obtain ⟨hadvance, htrace⟩ := ih hrest
      refine ⟨?_, by rw [trace_succ steps hother, htrace, performed_withInput hfirst]⟩
      rw [advance_succ steps hother, hadvance, List.drop_drop, advance_succ steps hstep]
    | halted | failed =>
      rw [hstep] at hother
      simp [advance, trace, performed, hother, hstep, Progress.withInput]

variable {steps : Nat} {code : List Op} {input : List UInt8} {tapeSize : Int}

theorem load_eq_map (code : List Op) (input other : List UInt8) (tapeSize : Int) :
    load code other tapeSize =
      (load code input tapeSize).map fun loaded => (loaded.1, loaded.2.withInput other) := by
  simp only [load]
  split
  · rfl
  · split <;> rfl

theorem input_of_load (h : load code input tapeSize = .ok (program, state)) :
    state.input = input := by
  have hsame := load_eq_map code input input tapeSize
  rw [h] at hsame
  injection hsame with hsame
  exact congrArg (fun loaded => loaded.2.input) hsame

/-- The same for a run on a fresh tape, whether it halts, fails or goes on. -/
theorem run_withInput (h : AgreeOn (reads (runTrace steps code input tapeSize)) input other) :
    run steps code other tapeSize = run steps code input tapeSize ∧
      runTrace steps code other tapeSize = runTrace steps code input tapeSize := by
  rw [runTrace] at h
  rw [run, run, runTrace, runTrace, load_eq_map code input other]
  cases hload : load code input tapeSize with
  | error failure => exact ⟨rfl, rfl⟩
  | ok loaded =>
    obtain ⟨program, state⟩ := loaded
    rw [hload, ← input_of_load hload] at h
    obtain ⟨hadvance, htrace⟩ := advance_withInput steps h
    exact ⟨by simp only [Except.map, hadvance, Progress.answer?_withInput], htrace⟩

/-- **A run depends only on the input bytes it reads, and beyond the input it reads zeros.** Where a
run halts, it halts just so, by the same operations and with the same output and the same memory, on
every input that has the same bytes as far as the run reads, both inputs being continued by zeros.
So zeros behind the input change nothing, nor does anything that stands in the place of the bytes
left unread. -/
theorem run_of_agreeOn (text : String) (input : List UInt8) (tapeSize : Int) (steps : Nat)
    (outcome : Outcome) (h : run steps (readCode text) input tapeSize = some (.ok outcome)) :
    (∀ other, AgreeOn (reads (runTrace steps (readCode text) input tapeSize)) input other →
      run steps (readCode text) other tapeSize = some (.ok outcome) ∧
        runTrace steps (readCode text) other tapeSize =
          runTrace steps (readCode text) input tapeSize) ∧
      (∀ zeros, run steps (readCode text) (input ++ List.replicate zeros 0) tapeSize =
        some (.ok outcome)) ∧
      ∀ rest, reads (runTrace steps (readCode text) input tapeSize) ≤ input.length →
        run steps (readCode text)
            (input.take (reads (runTrace steps (readCode text) input tapeSize)) ++ rest) tapeSize =
          some (.ok outcome) := by
  rw [← h]
  exact ⟨fun _ => run_withInput, fun zeros => (run_withInput (.append_zeros _ zeros input)).1,
    fun rest hcount => (run_withInput (.take_append hcount rest)).1⟩

/-- Copies its input up to the first zero, which is the end of the input. -/
theorem run_of_agreeOn_copy :
    run 20 (readCode ",[.,] bye") [65, 66] 1 = some (.ok ⟨#[65, 66], #[0]⟩) ∧
      run 20 (readCode ",[.,] bye") [65, 66, 0, 67] 1 = some (.ok ⟨#[65, 66], #[0]⟩) := by
  have hrun : run 20 (readCode ",[.,] bye") [65, 66] 1 = some (.ok ⟨#[65, 66], #[0]⟩) := by rfl
  exact ⟨hrun, ((run_of_agreeOn ",[.,] bye" [65, 66] 1 20 _ hrun).1 [65, 66, 0, 67] (by decide)).1⟩

end TapeCompiler.Machine
