import TapeCompiler.Proofs.Machine.Matching
import TapeCompiler.Proofs.Machine.StructuredRuns
/-!
# What a step may do

A program that was made from a code has the jump table of a nest, so its brackets have partners and
these are brackets too. A step of such a program, on a tape with a cell under the head, is a command,
a bracket that is passed, a jump behind its partner, or the end of the run (`step_forms`). In
particular the machine still holds a snapshot behind it, on a tape of the same size
(`exists_snapshot_of_advance`).
-/
namespace TapeCompiler

/-- The two operations that need no cell. -/
def Op.IsMove (op : Op) : Prop := op = .right ∨ op = .left

instance (op : Op) : Decidable op.IsMove := inferInstanceAs (Decidable (_ ∨ _))

namespace Machine

variable {program : Program} {code : List Op}

/-! ## The brackets of a program -/

/-- The jump table of a program is that of a nest. -/
theorem exists_nest_of_ofCode? (h : Program.ofCode? code = some program) :
    ∃ nest : Nest Command Unit, nest.ops = code ∧
      program = ⟨code.toArray, .ofPairs nest.size (nest.pairsFrom 0)⟩ := by
  obtain ⟨table, htable, rfl⟩ := Option.map_eq_some_iff.1 h
  have hbalanced : Balanced (code.map Op.bracket?) := by
    rw [← isSome_ofBrackets?, htable]
    rfl
  obtain ⟨nest, hnest⟩ := ((wellNested_iff_balanced code).2 hbalanced).exists_nest
  obtain rfl := ops_of_pieces hnest
  rw [ofBrackets?_ops] at htable
  cases htable
  exact ⟨nest, rfl, rfl⟩

theorem ops_of_ofCode? (h : Program.ofCode? code = some program) : program.ops = code.toArray := by
  obtain ⟨nest, -, rfl⟩ := exists_nest_of_ofCode? h
  rfl

/-- Every bracket has a partner. -/
theorem exists_partner_of_bracket (h : Program.ofCode? code = some program) {p : Nat} {op : Op}
    (hop : program.ops[p]? = some op) (hbracket : op.bracket? ≠ none) :
    ∃ q, program.jumps.partner? p = some q := by
  obtain ⟨nest, rfl, rfl⟩ := exists_nest_of_ofCode? h
  rw [List.getElem?_toArray] at hop
  obtain ⟨bracket, hbracket⟩ := Option.ne_none_iff_exists'.1 hbracket
  exact exists_partner_ops (by rw [List.getElem?_map, hop, Option.map_some, hbracket])

/-- Partners are the two brackets of a loop. -/
theorem exists_pairs_of_ofCode? (h : Program.ofCode? code = some program) :
    ∃ nest : Nest Command Unit, nest.ops = code ∧
      ∀ p q, program.jumps.partner? p = some q ↔
        (p, q) ∈ nest.pairsFrom 0 ∨ (q, p) ∈ nest.pairsFrom 0 := by
  obtain ⟨nest, hnest, rfl⟩ := exists_nest_of_ofCode? h
  refine ⟨nest, hnest, fun p q => ?_⟩
  refine partner?_ofPairs_iff (nodup_positions_pairsFrom nest 0) fun p hp => ?_
  have := (mem_positions_pairsFrom hp).2
  omega

theorem partner?_comm (h : Program.ofCode? code = some program) {p q : Nat}
    (hpartner : program.jumps.partner? p = some q) : program.jumps.partner? q = some p := by
  obtain ⟨nest, -, hpairs⟩ := exists_pairs_of_ofCode? h
  exact (hpairs q p).2 ((hpairs p q).1 hpartner).symm

/-- A partner is a bracket. -/
theorem bracket_of_partner? (h : Program.ofCode? code = some program) {p q : Nat}
    (hpartner : program.jumps.partner? p = some q) :
    ∃ op, program.ops[q]? = some op ∧ op.bracket? ≠ none := by
  rw [ops_of_ofCode? h]
  obtain ⟨nest, rfl, hpairs⟩ := exists_pairs_of_ofCode? h
  have hbracket : ∃ bracket, (nest.ops.map Op.bracket?)[q]? = some (some bracket) :=
    ((hpairs p q).1 hpartner).elim
      (fun hpair => ⟨_, (joins_of_mem_pairsFrom hpair).brackets.2.2.1⟩)
      (fun hpair => ⟨_, (joins_of_mem_pairsFrom hpair).brackets.2.1⟩)
  obtain ⟨bracket, hbracket⟩ := hbracket
  rw [List.getElem?_map, Option.map_eq_some_iff] at hbracket
  obtain ⟨op, hop, hbracket⟩ := hbracket
  exact ⟨op, by rw [List.getElem?_toArray, hop], by rw [hbracket]; exact Option.some_ne_none _⟩

/-! ## Steps -/

theorem stateAt_inj {s t : Snapshot} {p q : Nat} (h : s.stateAt p = t.stateAt q) : s = t ∧ p = q := by
  obtain ⟨hcounter, htape, hinput, houtput⟩ := State.mk.inj h
  exact ⟨Snapshot.ext_of htape hinput houtput, hcounter⟩

/-- The operation that stands at a position, as a command or a bracket. -/
theorem command_or_bracket (op : Op) : (∃ c : Command, op = c.op) ∨ op.bracket? ≠ none := by
  cases op with
  | increment => exact .inl ⟨.increment, rfl⟩
  | decrement => exact .inl ⟨.decrement, rfl⟩
  | right => exact .inl ⟨.right, rfl⟩
  | left => exact .inl ⟨.left, rfl⟩
  | read => exact .inl ⟨.read, rfl⟩
  | write => exact .inl ⟨.write, rfl⟩
  | openLoop | closeLoop => exact .inr (Option.some_ne_none _)

/-- All that a step may do. A bracket is passed, or the run goes on behind its partner. -/
theorem step_forms (h : Program.ofCode? code = some program) (s : Snapshot) (p : Nat) :
    (∃ c : Command, program.ops[p]? = some c.op ∧
        step program (s.stateAt p) = .running ((c.apply s).stateAt (p + 1))) ∨
      (∃ op q, program.ops[p]? = some op ∧ op.bracket? ≠ none ∧
        program.jumps.partner? p = some q ∧
        (step program (s.stateAt p) = .running (s.stateAt (p + 1)) ∨
          step program (s.stateAt p) = .running (s.stateAt (q + 1)))) ∨
      program.ops[p]? = none ∧ step program (s.stateAt p) = .halted (s.stateAt p) := by
  cases hop : program.ops[p]? with
  | none =>
    refine .inr (.inr ⟨rfl, ?_⟩)
    simp only [step, Snapshot.stateAt, hop]
  | some op =>
    rcases command_or_bracket op with ⟨c, rfl⟩ | hbracket
    · exact .inl ⟨c, rfl, step_command hop⟩
    · obtain ⟨q, hq⟩ := exists_partner_of_bracket h hop hbracket
      refine .inr (.inl ⟨op, q, rfl, hbracket, hq, ?_⟩)
      cases op with
      | openLoop =>
        rw [step_openLoop hop hq]
        split
        · exact .inr rfl
        · exact .inl rfl
      | closeLoop =>
        rw [step_closeLoop hop hq]
        split
        · exact .inl rfl
        · exact .inr rfl
      | increment | decrement | right | left | read | write => exact absurd rfl hbracket

@[simp] theorem size_apply (c : Command) (s : Snapshot) :
    (c.apply s).tape.size = s.tape.size := by
  cases c with
  | increment | decrement | read => exact Tape.size_update _ _
  | right | left | write => rfl

theorem exists_snapshot_of_step (h : Program.ofCode? code = some program) {s : Snapshot} {p : Nat}
    {next : State} (hstep : step program (s.stateAt p) = .running next) :
    ∃ t q, next = Snapshot.stateAt t q ∧ t.tape.size = s.tape.size := by
  rcases step_forms h s p with ⟨c, -, hc⟩ | ⟨_, _, -, -, -, hpass | hjump⟩ | ⟨-, hhalt⟩
  · cases hc.symm.trans hstep
    exact ⟨_, _, rfl, size_apply c s⟩
  · cases hpass.symm.trans hstep
    exact ⟨s, _, rfl, rfl⟩
  · cases hjump.symm.trans hstep
    exact ⟨s, _, rfl, rfl⟩
  · cases hhalt.symm.trans hstep

/-- Wherever a run comes to, the machine holds a snapshot there, on a tape as long as at first. -/
theorem exists_snapshot_of_advance (h : Program.ofCode? code = some program) {s : Snapshot}
    {p steps : Nat} {state : State}
    (hadvance : advance program steps (s.stateAt p) = .running state) :
    ∃ t q, state = Snapshot.stateAt t q ∧ t.tape.size = s.tape.size := by
  induction steps generalizing s p with
  | zero => exact ⟨s, p, (Progress.running.inj hadvance).symm, rfl⟩
  | succ steps ih =>
    rw [advance] at hadvance
    cases hstep : step program (s.stateAt p) with
    | running next =>
      obtain ⟨t, q, rfl, ht⟩ := exists_snapshot_of_step h hstep
      rw [hstep] at hadvance
      obtain ⟨u, r, hu, hsize⟩ := ih hadvance
      exact ⟨u, r, hu, hsize.trans ht⟩
    | halted | failed =>
      rw [hstep] at hadvance
      cases hadvance

end Machine

end TapeCompiler
