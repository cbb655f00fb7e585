import TapeCompiler.Proofs.Machine.Balance
import TapeCompiler.Proofs.Machine.Jumps
/-!
# The machine runs structured code

The machine knows nothing of nests: it goes from position to position and, at a bracket, may jump
behind the other one. Started in front of a nest that is in its place, it arrives behind it exactly
in the states in which the nest may end (`reaches_of_runs`, `runs_of_halts`). So a balanced code
halts as its nest does (`halts_iff_executes`), and where it does not halt it goes on for ever, for
it never fails (`advance_ne_failed`).
-/
namespace TapeCompiler

/-- A machine that holds a snapshot and stands at a position of its code. -/
def Snapshot.stateAt (s : Snapshot) (counter : Nat) : Machine.State :=
  ⟨counter, s.tape, s.input, s.output⟩

namespace Machine

variable {program : Program} {p : Nat} {s t : Snapshot}

/-! ## One step -/

theorem step_command {c : Command} (h : program.ops[p]? = some c.op) :
    step program (s.stateAt p) = .running ((c.apply s).stateAt (p + 1)) := by
  have hbyte := s.current?_tape
  rw [step, Snapshot.stateAt, h]
  cases c <;> simp only [execute, Command.op, hbyte] <;> rfl

theorem step_openLoop (h : program.ops[p]? = some .openLoop) {q : Nat}
    (hjump : program.jumps.partner? p = some q) :
    step program (s.stateAt p) =
      .running (s.stateAt (if s.byte = 0 then q + 1 else p + 1)) := by
  simp only [step, Snapshot.stateAt, h, execute, s.current?_tape, jump, hjump]
  split <;> rfl

theorem step_closeLoop (h : program.ops[p]? = some .closeLoop) {q : Nat}
    (hjump : program.jumps.partner? p = some q) :
    step program (s.stateAt p) =
      .running (s.stateAt (if s.byte = 0 then p + 1 else q + 1)) := by
  simp only [step, Snapshot.stateAt, h, execute, s.current?_tape, jump, hjump]
  split <;> rfl

/-! ## Many steps -/

/-- The machine gets from one state to another. -/
def Reaches (program : Program) (a b : State) : Prop :=
  ∃ steps, advance program steps a = .running b

theorem Reaches.refl (a : State) : Reaches program a a := ⟨0, rfl⟩

theorem Reaches.step {a b c : State} (h : step program a = .running b)
    (hbc : Reaches program b c) : Reaches program a c := by
  obtain ⟨n, hn⟩ := hbc
  exact ⟨n + 1, by rw [advance, h]; exact hn⟩

theorem Reaches.trans {a b c : State} (hab : Reaches program a b) (hbc : Reaches program b c) :
    Reaches program a c := by
  obtain ⟨m, hm⟩ := hab
  obtain ⟨n, hn⟩ := hbc
  exact ⟨m + n, by rw [advance_add, hm]; exact hn⟩

/-- What is reached on the way to a halt halts there too. -/
theorem halted_of_reaches {a b final : State} (hab : Reaches program a b) {n : Nat}
    (h : advance program n b = .halted final) : ∃ steps, advance program steps a = .halted final := by
  obtain ⟨m, hm⟩ := hab
  exact ⟨m + n, by rw [advance_add, hm]; exact h⟩

/-- A run that halts has made the first step. -/
theorem exists_of_halted {a b final : State} {n : Nat} (hstep : step program a = .running b)
    (h : advance program n a = .halted final) :
    ∃ k, n = k + 1 ∧ advance program k b = .halted final := by
  cases n with
  | zero => simp [advance] at h
  | succ k =>
    rw [advance, hstep] at h
    exact ⟨k, rfl, h⟩

/-! ## From runs of nests to runs of the machine -/

/-- A loop entered behind its opening bracket is left behind its closing one. The machine tests at
the closing bracket, so it repeats from there and never returns to the opening one. -/
theorem reaches_of_repeat {body rest : Nest Command Unit} {label : Unit}
    (hplaced : Placed program p (.loop label body rest))
    (hbody : ∀ {s t : Snapshot}, body.Runs machineMeaning s t →
      Reaches program (s.stateAt (p + 1)) (t.stateAt (p + 1 + body.size)))
    (h : Repeat (machineMeaning.test label) (body.Runs machineMeaning) s t) (hs : s.byte ≠ 0) :
    Reaches program (s.stateAt (p + 1)) (t.stateAt (p + body.size + 2)) := by
  obtain ⟨_, _, _, hclose, hback, _⟩ := hplaced
  induction h with
  | done stop => exact absurd hs stop
  | @again s m t _ first rest ih =>
    have hm := hbody first
    rw [Nat.add_right_comm] at hm
    refine hm.trans ?_
    have hstep := step_closeLoop (s := m) hclose hback
    by_cases hz : m.byte = 0
    · rw [if_pos hz] at hstep
      obtain rfl := (Repeat.iff_of_not fun h => h hz).1 rest
      exact .step hstep (.refl _)
    · rw [if_neg hz] at hstep
      exact .step hstep (ih hz)

theorem reaches_of_runs {code : Nest Command Unit} (hplaced : Placed program p code)
    (h : code.Runs machineMeaning s t) :
    Reaches program (s.stateAt p) (t.stateAt (p + code.size)) := by
  induction code generalizing p s t with
  | done =>
    obtain rfl : t = s := h
    exact .refl _
  | act c rest ih =>
    obtain ⟨m, rfl, hrest⟩ := h
    have hr := ih hplaced.2 hrest
    rw [Nat.add_right_comm] at hr
    exact .step (step_command hplaced.1) hr
  | loop label body rest ihb ih =>
    obtain ⟨m, hloop, hrest⟩ := h
    have hr := ih hplaced.2.2.2.2.2 hrest
    rw [show p + body.size + 2 + rest.size = p + (Nest.loop label body rest).size by
      simp only [Nest.size]; omega] at hr
    have hstep := step_openLoop (s := s) hplaced.1 hplaced.2.1
    refine Reaches.trans ?_ hr
    by_cases hz : s.byte = 0
    · rw [if_pos hz] at hstep
      obtain rfl := (Repeat.iff_of_not fun h => h hz).1 hloop
      exact .step hstep (.refl _)
    · rw [if_neg hz] at hstep
      exact .step hstep (reaches_of_repeat hplaced (ihb hplaced.2.2.1) hloop hz)

/-! ## From runs of the machine to runs of nests -/

/-- A run that halts comes out of every loop it is in. The induction is on its number of steps,
which grows smaller with each round. -/
theorem repeat_of_halts {body rest : Nest Command Unit} {label : Unit} {final : State}
    (hplaced : Placed program p (.loop label body rest))
    (hbody : ∀ {n : Nat} {s : Snapshot}, advance program n (s.stateAt (p + 1)) = .halted final →
      ∃ k ≤ n, ∃ t, body.Runs machineMeaning s t ∧
        advance program k (t.stateAt (p + 1 + body.size)) = .halted final)
    {n : Nat} (hs : s.byte ≠ 0) (h : advance program n (s.stateAt (p + 1)) = .halted final) :
    ∃ k ≤ n, ∃ t, Repeat (machineMeaning.test label) (body.Runs machineMeaning) s t ∧
      advance program k (t.stateAt (p + body.size + 2)) = .halted final := by
  obtain ⟨_, _, _, hclose, hback, _⟩ := hplaced
  induction n using Nat.strongRecOn generalizing s with
  | ind n ih =>
    obtain ⟨k, hk, m, first, hm⟩ := hbody h
    rw [Nat.add_right_comm] at hm
    have hstep := step_closeLoop (s := m) hclose hback
    obtain ⟨j, rfl, hj⟩ := exists_of_halted hstep hm
    by_cases hz : m.byte = 0
    · rw [if_pos hz] at hj
      exact ⟨j, by omega, m, .again hs first (.done fun h => h hz), hj⟩
    · rw [if_neg hz] at hj
      obtain ⟨i, hi, t, hloop, ht⟩ := ih j (by omega) hz hj
      exact ⟨i, by omega, t, .again hs first hloop, ht⟩

theorem runs_of_halts {code : Nest Command Unit} {final : State} {n : Nat}
    (hplaced : Placed program p code) (h : advance program n (s.stateAt p) = .halted final) :
    ∃ k ≤ n, ∃ t, code.Runs machineMeaning s t ∧
      advance program k (t.stateAt (p + code.size)) = .halted final := by
  induction code generalizing p s n with
  | done => exact ⟨n, Nat.le_refl n, s, rfl, h⟩
  | act c rest ih =>
    obtain ⟨k, rfl, hk⟩ := exists_of_halted (step_command hplaced.1) h
    obtain ⟨j, hj, t, hrest, ht⟩ := ih hplaced.2 hk
    rw [Nat.add_right_comm] at ht
    exact ⟨j, by omega, t, ⟨_, rfl, hrest⟩, ht⟩
  | loop label body rest ihb ih =>
    have hend : p + body.size + 2 + rest.size = p + (Nest.loop label body rest).size := by
      simp only [Nest.size]; omega
    obtain ⟨k, rfl, hk⟩ := exists_of_halted (step_openLoop hplaced.1 hplaced.2.1) h
    by_cases hz : s.byte = 0
    · rw [if_pos hz] at hk
      obtain ⟨j, hj, t, hrest, ht⟩ := ih hplaced.2.2.2.2.2 hk
      rw [hend] at ht
      exact ⟨j, by omega, t, ⟨s, .done fun h => h hz, hrest⟩, ht⟩
    · rw [if_neg hz] at hk
      obtain ⟨j, hj, m, hloop, hm⟩ := repeat_of_halts hplaced (ihb hplaced.2.2.1) hz hk
      obtain ⟨i, hi, t, hrest, ht⟩ := ih hplaced.2.2.2.2.2 hm
      rw [hend] at ht
      exact ⟨i, by omega, t, ⟨m, hloop, hrest⟩, ht⟩

/-! ## Runs without faults -/

theorem step_cases {code : Nest Command Unit} (hops : program.ops = code.ops.toArray)
    (hplaced : Placed program 0 code) (s : Snapshot) (p : Nat) :
    (∃ t q, step program (s.stateAt p) = .running (Snapshot.stateAt t q)) ∨
      step program (s.stateAt p) = .halted (s.stateAt p) := by
  cases hop : program.ops[p]? with
  | none =>
    right
    simp only [step, Snapshot.stateAt, hop]
  | some op =>
    left
    have hpartner : op.bracket? ≠ none → ∃ q, program.jumps.partner? p = some q := by
      intro hbracket
      rw [hops, List.getElem?_toArray] at hop
      simpa using hplaced.exists_partner hop hbracket
    cases op with
    | increment => exact ⟨_, _, step_command (c := .increment) hop⟩
    | decrement => exact ⟨_, _, step_command (c := .decrement) hop⟩
    | right => exact ⟨_, _, step_command (c := .right) hop⟩
    | left => exact ⟨_, _, step_command (c := .left) hop⟩
    | read => exact ⟨_, _, step_command (c := .read) hop⟩
    | write => exact ⟨_, _, step_command (c := .write) hop⟩
    | openLoop =>
      obtain ⟨q, hq⟩ := hpartner (by simp [Op.bracket?])
      exact ⟨_, _, step_openLoop hop hq⟩
    | closeLoop =>
      obtain ⟨q, hq⟩ := hpartner (by simp [Op.bracket?])
      exact ⟨_, _, step_closeLoop hop hq⟩

/-- The machine never fails on the text of a nest: it halts or runs forever. -/
theorem advance_ne_failed {code : Nest Command Unit} (hops : program.ops = code.ops.toArray)
    (hplaced : Placed program 0 code) (n : Nat) (s : Snapshot) (p : Nat) (fault : Fault)
    (state : State) : advance program n (s.stateAt p) ≠ .failed fault state := by
  induction n generalizing s p with
  | zero => simp [advance]
  | succ n ih =>
    rw [advance]
    rcases step_cases hops hplaced s p with ⟨t, q, h⟩ | h
    · rw [h]
      exact ih t q
    · rw [h]
      simp

/-! ## Whole runs -/

theorem step_end {code : Nest Command Unit} (h : program.ops = code.ops.toArray) :
    step program (s.stateAt code.size) = .halted (s.stateAt code.size) := by
  have hend : program.ops[code.size]? = none := by simp [h]
  simp only [step, Snapshot.stateAt, hend]

/-- A machine at the start of the text of a nest halts as the nest does, and in no other state. -/
theorem halted_iff_runs {code : Nest Command Unit} (hops : program.ops = code.ops.toArray)
    (hplaced : Placed program 0 code) {final : State} :
    (∃ steps, advance program steps (s.stateAt 0) = .halted final) ↔
      ∃ t, final = t.stateAt code.size ∧ code.Runs machineMeaning s t := by
  constructor
  · rintro ⟨n, h⟩
    obtain ⟨k, _, t, hr, ht⟩ := runs_of_halts hplaced h
    rw [Nat.zero_add] at ht
    refine ⟨t, ?_, hr⟩
    cases k with
    | zero => simp [advance] at ht
    | succ k =>
      rw [advance, step_end hops] at ht
      exact (Progress.halted.inj ht).symm
  · rintro ⟨t, rfl, hr⟩
    have hreach := reaches_of_runs hplaced hr
    rw [Nat.zero_add] at hreach
    refine halted_of_reaches hreach (n := 1) ?_
    rw [advance, step_end hops]

/-- The program of a well nested code, started in any snapshot, halts as its structured form does.
If it does not halt it runs forever, for it never fails. -/
theorem halted_iff_of_wellNested {ops : List Op} (h : WellNested (ops.map Op.piece)) :
    ∃ program, Program.ofCode? ops = some program ∧
      ∀ s : Snapshot,
        (∀ steps fault state, advance program steps (s.stateAt 0) ≠ .failed fault state) ∧
        ∀ final : State, (∃ steps, advance program steps (s.stateAt 0) = .halted final) ↔
          ∃ t : Snapshot, final = t.stateAt ops.length ∧
            Executes machineMeaning (ops.map Op.piece) s t := by
  obtain ⟨code, hcode⟩ := h.exists_nest
  obtain rfl := ops_of_pieces hcode
  obtain ⟨program, hprogram, hops, hplaced⟩ := exists_placed code
  refine ⟨program, hprogram, fun s => ⟨fun steps => advance_ne_failed hops hplaced steps s 0, ?_⟩⟩
  intro final
  rw [halted_iff_runs hops hplaced, length_ops, map_piece_ops]
  simp only [executes_pieces]

theorem load_eq_ok {code : List Op} (h : Program.ofCode? code = some program)
    (input : List UInt8) (size : Nat) :
    load code input size = .ok (program, .initial (.blank size) input) := by
  rw [load, h]
  exact if_neg (Int.not_lt.2 (Int.natCast_nonneg size))

/-- Well nested code is loaded and never fails on a tape with cells. -/
theorem run_ne_error {code : List Op} (h : WellNested (code.map Op.piece)) {size : Nat}
    (hsize : 0 < size) (input : List UInt8) (steps : Nat) (failure : Failure) :
    run steps code input size ≠ some (.error failure) := by
  obtain ⟨program, hprogram, hruns⟩ := halted_iff_of_wellNested h
  have hadvance := (hruns (.start (Array.replicate size 0) (by simpa using hsize) input)).1 steps
  rw [run, load_eq_ok hprogram]
  show (advance program steps (.initial (.blank size) input)).answer? ≠ _
  cases hprogress : advance program steps (.initial (.blank size) input) with
  | running state => simp [Progress.answer?]
  | halted state => simp [Progress.answer?]
  | failed fault state => exact absurd hprogress (hadvance fault state)

/-- **Jumping is looping.** A text whose brackets balance can be run, and on a tape with cells it
halts exactly where its structured form ends: with that tape, that output and that much of the
input left. -/
theorem halts_iff_executes (text : String) (h : Balanced ((readCode text).map Op.bracket?)) :
    ∃ program, Program.ofCode? (readCode text) = some program ∧
      ∀ (cells : Array UInt8) (hcells : 0 < cells.size) (input : List UInt8) (final : State),
        (∃ steps, advance program steps (.initial ⟨cells, 0⟩ input) = .halted final) ↔
          ∃ t : Snapshot, final = t.stateAt (readCode text).length ∧
            Executes machineMeaning ((readCode text).map Op.piece) (.start cells hcells input) t := by
  obtain ⟨program, hprogram, hruns⟩ :=
    halted_iff_of_wellNested ((wellNested_iff_balanced (readCode text)).2 h)
  exact ⟨program, hprogram, fun cells hcells input =>
    (hruns (.start cells hcells input)).2⟩

/-- Clears a cell, then passes one byte on. -/
theorem halts_iff_executes_clear :
    Balanced ((readCode "[-] ,.").map Op.bracket?) ∧
      ∃ t : Snapshot, Executes machineMeaning ((readCode "[-] ,.").map Op.piece)
        (.start #[2] (by decide) [65, 66]) t ∧ t.output = #[65] ∧ t.input = [66] := by
  have hbalanced : Balanced ((readCode "[-] ,.").map Op.bracket?) := by decide
  refine ⟨hbalanced, ?_⟩
  obtain ⟨program, hprogram, hruns⟩ := halts_iff_executes "[-] ,." hbalanced
  have hhalt : advance program 20 (.initial ⟨#[2], 0⟩ [65, 66]) =
      .halted ⟨5, ⟨#[65], 0⟩, [66], #[65]⟩ := by
    cases hprogram
    rfl
  obtain ⟨t, hfinal, ht⟩ := (hruns #[2] (by decide) [65, 66] _).1 ⟨20, hhalt⟩
  simp only [Snapshot.stateAt, State.mk.injEq] at hfinal
  exact ⟨t, ht, hfinal.2.2.2.symm, hfinal.2.2.1.symm⟩

end Machine

end TapeCompiler
