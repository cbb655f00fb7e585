import TapeCompiler.Proofs.Asm.TapeMeaning
import TapeCompiler.Proofs.Machine.StructuredRuns
/-!
# Encoded instructions

The code of an instruction goes to its cell, works there and comes back, so between instructions
the head is at the start of a row. The brackets of a loop are apart from the start of the row too:
what stands between them in the code is the way back, the body, and the way to the closing bracket.
Seen from the start of the row this is the body alone (`codeRuns_loopAt`), whatever rows it visits.
-/
namespace TapeCompiler

variable {s t : Snapshot}

/-! ## Code as a relation -/

/-- The runs of machine code. -/
def CodeRuns (ops : List Op) : Snapshot → Snapshot → Prop :=
  Executes machineMeaning (ops.map Op.piece)

/-- Machine code whose brackets match. -/
def Nested (ops : List Op) : Prop := WellNested (ops.map Op.piece)

theorem Nested.append {first second : List Op} (hf : Nested first) (hs : Nested second) :
    Nested (first ++ second) := by
  rw [Nested, List.map_append]
  exact WellNested.append hf hs

theorem Nested.loop {body : List Op} (h : Nested body) :
    Nested (.openLoop :: body ++ [.closeLoop]) := by
  rw [Nested, List.cons_append, List.map_cons, List.map_append]
  exact WellNested.loop () h .nil

theorem codeRuns_nil : CodeRuns [] s t ↔ t = s := executes_nil

theorem codeRuns_append {first second : List Op} (hf : Nested first) (hs : Nested second) :
    CodeRuns (first ++ second) s t ↔ ∃ m, CodeRuns first s m ∧ CodeRuns second m t := by
  rw [CodeRuns, List.map_append]
  exact executes_append hf hs

theorem codeRuns_loop {body : List Op} (h : Nested body) :
    CodeRuns (.openLoop :: body ++ [.closeLoop]) s t ↔
      Repeat (fun s => s.byte ≠ 0) (CodeRuns body) s t := by
  rw [CodeRuns, List.cons_append, List.map_cons, List.map_append]
  refine (executes_loop h .nil).trans ?_
  simp only [executes_nil, exists_eq_right']
  exact Iff.rfl

/-! ## Straight code -/

theorem nested_commands (cs : List Command) : Nested (cs.map Command.op) := by
  induction cs with
  | nil => rfl
  | cons c rest ih =>
    rw [Nested, List.map_cons, List.map_cons, Op.piece_op]
    exact ih

theorem codeRuns_commands (cs : List Command) :
    CodeRuns (cs.map Command.op) s t ↔ t = cs.foldl (fun s c => c.apply s) s := by
  induction cs generalizing s with
  | nil => exact codeRuns_nil
  | cons c rest ih =>
    rw [CodeRuns, List.map_cons, List.map_cons, Op.piece_op, executes_act]
    constructor
    · rintro ⟨m, rfl, hrest⟩
      exact ih.1 hrest
    · intro h
      exact ⟨c.apply s, rfl, ih.2 h⟩

/-- One operation other than a bracket. -/
theorem nested_op {op : Op} {c : Command} (h : op.piece = .act c) : Nested [op] := by
  rw [Nested, List.map_cons, h]
  exact wellNested_pieces (.act c .done)

theorem codeRuns_op {op : Op} {c : Command} (h : op.piece = .act c) :
    CodeRuns [op] s t ↔ t = c.apply s := by
  rw [← Op.op_piece op, h]
  exact codeRuns_commands [c]

theorem nested_replicate (n : Nat) (c : Command) : Nested (List.replicate n c.op) := by
  rw [← List.map_replicate]
  exact nested_commands _

theorem nested_right (n : Nat) : Nested (List.replicate n .right) := nested_replicate n .right

theorem nested_left (n : Nat) : Nested (List.replicate n .left) := nested_replicate n .left

/-- One command many times is `F n`, if doing it first and `F n` then is `F (n + 1)`. -/
theorem codeRuns_replicate {c : Command} {F : Nat → Snapshot → Snapshot}
    (hzero : ∀ s, F 0 s = s) (hsucc : ∀ n s, F n (c.apply s) = F (n + 1) s) {n : Nat} :
    CodeRuns (List.replicate n c.op) s t ↔ t = F n s := by
  have h : (List.replicate n c).foldl (fun s c => c.apply s) s = F n s := by
    induction n generalizing s with
    | zero => exact (hzero s).symm
    | succ n ih => rw [List.replicate_succ, List.foldl_cons, ih, hsucc]
  rw [← List.map_replicate, codeRuns_commands, h]

theorem codeRuns_right {n : Nat} : CodeRuns (List.replicate n .right) s t ↔ t = s.travel n := by
  refine codeRuns_replicate (c := .right) (F := fun n s => s.travel n) Snapshot.travel_zero ?_
  intro n s
  rw [Command.apply, Snapshot.moveRight_eq, Snapshot.travel_travel, Int.add_comm]
  rfl

theorem codeRuns_left {n : Nat} : CodeRuns (List.replicate n .left) s t ↔ t = s.travel (-n) := by
  refine codeRuns_replicate (c := .left) (F := fun n s => s.travel (-n)) Snapshot.travel_zero ?_
  intro n s
  rw [Command.apply, Snapshot.moveLeft_eq, Snapshot.travel_travel]
  congr 1
  omega

theorem update_update (s : Snapshot) (f g : UInt8 → UInt8) :
    (s.update f).update g = s.update (g ∘ f) := by
  have h : ∀ cells : Array UInt8, ∀ i, (cells.modify i f).modify i g = cells.modify i (g ∘ f) := by
    intro cells i
    apply Array.ext
    · simp
    · intro j _ _
      simp only [Array.getElem_modify]
      split <;> rfl
  exact Snapshot.eq_of_heads (h _ _) rfl rfl rfl

theorem update_id (s : Snapshot) : s.update id = s := by
  refine Snapshot.eq_of_heads ?_ rfl rfl rfl
  apply Array.ext
  · simp [Snapshot.update, Tape.update]
  · intro j _ _
    simp [Snapshot.update, Tape.update, Array.getElem_modify]

theorem codeRuns_increments {n : Nat} :
    CodeRuns (List.replicate n .increment) s t ↔ t = s.update (· + .ofNat n) := by
  refine codeRuns_replicate (c := .increment) (F := fun n s => s.update (· + .ofNat n)) ?_ ?_
  · intro s
    refine Eq.trans (congrArg (fun f => s.update f) (funext fun b => ?_)) (update_id s)
    simp
  · intro n s
    rw [Command.apply, update_update]
    congr 1
    funext b
    rw [Function.comp, UInt8.ofNat_add]
    grind

theorem codeRuns_decrements {n : Nat} :
    CodeRuns (List.replicate n .decrement) s t ↔ t = s.update (· - .ofNat n) := by
  refine codeRuns_replicate (c := .decrement) (F := fun n s => s.update (· - .ofNat n)) ?_ ?_
  · intro s
    refine Eq.trans (congrArg (fun f => s.update f) (funext fun b => ?_)) (update_id s)
    simp
  · intro n s
    rw [Command.apply, update_update]
    congr 1
    funext b
    rw [Function.comp, UInt8.ofNat_add]
    grind

/-! ## Code away from the start of the row -/

theorem nested_encodeAt {code : List Op} (k : Nat) (h : Nested code) :
    Nested (Asm.encodeAt k code) :=
  ((nested_right k).append h).append (nested_left k)

theorem codeRuns_encodeAt {code : List Op} {k : Nat} (h : Nested code) :
    CodeRuns (Asm.encodeAt k code) s t ↔ ∃ m, CodeRuns code (s.travel k) m ∧ t = m.travel (-k) := by
  rw [Asm.encodeAt, codeRuns_append ((nested_right k).append h) (nested_left k)]
  simp only [codeRuns_append (nested_right k) h, codeRuns_left, codeRuns_right, exists_eq_left]

/-- Coming back to the start of the row and going to an offset again changes nothing. -/
theorem travel_neg_travel (s : Snapshot) (d : Int) : (s.travel (-d)).travel d = s := by
  rw [Snapshot.travel_travel, Int.add_left_neg, Snapshot.travel_zero]

theorem travel_inj {d : Int} (h : s.travel d = t.travel d) : s = t := by
  have h' := congrArg (Snapshot.travel (-d)) h
  rwa [Snapshot.travel_travel, Snapshot.travel_travel, Int.add_right_neg, Snapshot.travel_zero,
    Snapshot.travel_zero] at h'

/-- A loop at an offset repeats what its code does seen from the start of the row. -/
theorem codeRuns_loopAt {body : List Op} {k : Nat} {B : Snapshot → Snapshot → Prop}
    (h : Nested body) (hbody : ∀ s t, CodeRuns body (s.travel k) (t.travel k) ↔ B s t) :
    CodeRuns (Asm.encodeAt k (.openLoop :: body ++ [.closeLoop])) s t ↔
      Repeat (fun s => s.value k ≠ 0) B s t := by
  have hB : (fun s t : Snapshot => CodeRuns body (s.travel k) (t.travel k)) = B := by
    funext s t
    exact propext (hbody s t)
  rw [codeRuns_encodeAt h.loop]
  simp only [codeRuns_loop h, Repeat.conj (e := Snapshot.travel k) (Snapshot.travel (-k))
    (fun t => travel_neg_travel t k), hB, Snapshot.byte_travel]
  constructor
  · rintro ⟨_, ⟨m, hr, rfl⟩, rfl⟩
    rwa [Snapshot.travel_travel, Int.add_right_neg, Snapshot.travel_zero]
  · intro hr
    refine ⟨_, ⟨t, hr, rfl⟩, ?_⟩
    rw [Snapshot.travel_travel, Int.add_right_neg, Snapshot.travel_zero]

/-! ## Clearing a cell -/

theorem byte_update (s : Snapshot) (f : UInt8 → UInt8) : (s.update f).byte = f s.byte := by
  simp only [Snapshot.byte, Snapshot.update, Tape.update, Array.getElem_modify, if_true]
  rfl

/-- Two changes of the byte under the head are one when they agree on that byte. -/
theorem update_congr {f g : UInt8 → UInt8} (h : f s.byte = g s.byte) : s.update f = s.update g := by
  refine Snapshot.eq_of_heads ?_ rfl rfl rfl
  apply Array.ext
  · simp [Snapshot.update, Tape.update]
  · intro j _ _
    simp only [Snapshot.update, Tape.update, Array.getElem_modify]
    split
    · next hj => subst hj; exact h
    · rfl

theorem repeat_decrement (s : Snapshot) :
    Repeat (fun s => s.byte ≠ 0) (fun s t => t = s.update (· - 1)) s (s.update fun _ => 0) := by
  generalize hn : s.byte.toNat = n
  induction n generalizing s with
  | zero =>
    have hz : s.byte = 0 := UInt8.toNat_inj.1 hn
    have h : s.update (fun _ => 0) = s := (update_congr (by simp [hz])).trans (update_id s)
    rw [h]
    exact .done fun h => h hz
  | succ n ih =>
    have hne : s.byte ≠ 0 := by
      intro h
      rw [h] at hn
      simp at hn
    have h := ih (s.update (· - 1)) (by
      rw [byte_update, UInt8.toNat_sub_of_le _ _ (by rw [UInt8.le_iff_toNat_le, hn]; simp), hn]
      simp)
    rw [update_update] at h
    exact .again hne rfl h

theorem codeRuns_increment : CodeRuns [.increment] s t ↔ t = s.update (· + 1) :=
  codeRuns_op (c := .increment) rfl

theorem codeRuns_decrement : CodeRuns [.decrement] s t ↔ t = s.update (· - 1) :=
  codeRuns_op (c := .decrement) rfl

theorem nested_increment : Nested [.increment] := nested_op rfl

theorem nested_decrement : Nested [.decrement] := nested_op rfl

theorem codeRuns_clear : CodeRuns [.openLoop, .decrement, .closeLoop] s t ↔
    t = s.update fun _ => 0 := by
  have hbody : CodeRuns [.decrement] = fun s t => t = s.update (· - 1) := by
    funext s t
    exact propext codeRuns_decrement
  rw [show [Op.openLoop, .decrement, .closeLoop] = .openLoop :: [.decrement] ++ [.closeLoop] from rfl,
    codeRuns_loop nested_decrement, hbody]
  constructor
  · intro h
    exact h.unique (by rintro s m n rfl rfl; rfl) (repeat_decrement s)
  · rintro rfl
    exact repeat_decrement s

/-! ## Single instructions -/

/-- Code that changes the byte under the head changes the cell at an offset when it is carried out
there. -/
theorem codeRuns_change {code : List Op} {k : Nat} {f : UInt8 → UInt8} (h : Nested code)
    (hcode : ∀ s t, CodeRuns code s t ↔ t = s.update f) :
    CodeRuns (Asm.encodeAt k code) s t ↔ t = s.change k f := by
  simp only [codeRuns_encodeAt h, hcode, exists_eq_left, Snapshot.update_travel]

theorem nested_clear : Nested [.openLoop, .decrement, .closeLoop] := nested_decrement.loop

theorem nested_increments (n : Nat) : Nested (List.replicate n .increment) :=
  nested_replicate n .increment

theorem nested_set (amount : Nat) :
    Nested ([.openLoop, .decrement, .closeLoop] ++ List.replicate amount .increment) :=
  nested_clear.append (nested_increments amount)

theorem codeRuns_set {amount : Nat} :
    CodeRuns ([.openLoop, .decrement, .closeLoop] ++ List.replicate amount .increment) s t ↔
      t = s.update fun _ => .ofNat amount := by
  rw [codeRuns_append nested_clear (nested_increments amount)]
  simp only [codeRuns_clear, codeRuns_increments, exists_eq_left, update_update]
  have h : ((· + UInt8.ofNat amount) ∘ fun _ : UInt8 => 0) = fun _ => UInt8.ofNat amount := by
    funext b
    simp
  rw [h]

theorem nested_targets (targets : List Nat) :
    Nested (targets.flatMap (Asm.encodeAt · [.increment])) := by
  induction targets with
  | nil => rfl
  | cons target rest ih =>
    rw [List.flatMap_cons]
    exact (nested_encodeAt target nested_increment).append ih

theorem codeRuns_targets {targets : List Nat} :
    CodeRuns (targets.flatMap (Asm.encodeAt · [.increment])) s t ↔
      t = targets.foldl (fun s target => s.change target (· + 1)) s := by
  induction targets generalizing s with
  | nil => exact codeRuns_nil
  | cons target rest ih =>
    rw [List.flatMap_cons,
      codeRuns_append (nested_encodeAt target nested_increment) (nested_targets rest)]
    simp only [codeRuns_change nested_increment fun _ _ => codeRuns_increment, ih, exists_eq_left,
      List.foldl_cons]

/-- The code of a copy is a loop at its source. -/
theorem encodeCopy_eq (source : Nat) (targets : List Nat) :
    Asm.encodeCopy source targets =
      Asm.encodeAt source (.openLoop :: ([.decrement] ++ List.replicate source .left
        ++ targets.flatMap (Asm.encodeAt · [.increment])
        ++ List.replicate source .right) ++ [.closeLoop]) := by
  simp [Asm.encodeCopy, Asm.encodeAt]

theorem nested_copyBody (source : Nat) (targets : List Nat) :
    Nested ([.decrement] ++ List.replicate source .left
      ++ targets.flatMap (Asm.encodeAt · [.increment]) ++ List.replicate source .right) :=
  ((nested_decrement.append (nested_left source)).append (nested_targets targets)).append
    (nested_right source)

theorem codeRuns_copyBody {source : Nat} {targets : List Nat} :
    CodeRuns ([.decrement] ++ List.replicate source .left
        ++ targets.flatMap (Asm.encodeAt · [.increment]) ++ List.replicate source .right)
      (s.travel source) (t.travel source) ↔ t = Asm.copyRound source targets s := by
  have hback := nested_decrement.append (nested_left source)
  rw [codeRuns_append (hback.append (nested_targets targets)) (nested_right source)]
  simp only [codeRuns_append hback (nested_targets targets),
    codeRuns_append nested_decrement (nested_left source), codeRuns_decrement, codeRuns_left, codeRuns_right,
    codeRuns_targets, exists_eq_left, Snapshot.update_travel]
  exact ⟨travel_inj, fun h => by rw [h, Asm.copyRound]⟩

theorem codeRuns_copy {source : Nat} {targets : List Nat} :
    CodeRuns (Asm.encodeCopy source targets) s t ↔
      Repeat (fun s => s.value source ≠ 0) (fun s t => t = Asm.copyRound source targets s) s t := by
  rw [encodeCopy_eq]
  exact codeRuns_loopAt (nested_copyBody source targets) fun _ _ => codeRuns_copyBody

namespace Asm

theorem nested_encode {instr : Instr Nat} (h : instr.piece = .act instr) :
    Nested (encode instr) := by
  cases instr with
  | define | comment => rfl
  | add cell amount => exact nested_encodeAt cell (nested_increments amount)
  | sub cell amount => exact nested_encodeAt cell (nested_replicate amount .decrement)
  | set cell amount => exact nested_encodeAt cell (nested_set amount)
  | right count => exact nested_right count
  | left count => exact nested_left count
  | openLoop | closeLoop => simp [Instr.piece] at h
  | copy source targets =>
    rw [encode, encodeCopy_eq]
    exact nested_encodeAt source (nested_copyBody source targets).loop
  | read cell => exact nested_encodeAt cell (nested_op rfl)
  | write cell => exact nested_encodeAt cell (nested_op rfl)

/-- The code of an instruction does what the instruction means. -/
theorem codeRuns_encode {instr : Instr Nat} (h : instr.piece = .act instr) :
    CodeRuns (encode instr) s t ↔ instr.Acts s t := by
  cases instr with
  | define | comment => exact codeRuns_nil
  | add cell amount =>
    exact codeRuns_change (nested_increments amount) fun _ _ => codeRuns_increments
  | sub cell amount =>
    exact codeRuns_change (nested_replicate amount .decrement) fun _ _ => codeRuns_decrements
  | set cell amount => exact codeRuns_change (nested_set amount) fun _ _ => codeRuns_set
  | right count => exact codeRuns_right
  | left count => exact codeRuns_left
  | openLoop | closeLoop => simp [Instr.piece] at h
  | copy source targets => exact codeRuns_copy
  | read cell =>
    rw [encode, codeRuns_encodeAt (nested_op rfl)]
    simp only [codeRuns_op (show Op.read.piece = .act .read from rfl), Command.apply, exists_eq_left,
      Instr.Acts, Snapshot.travel_consume, Snapshot.update_travel]
    exact Iff.rfl
  | write cell =>
    rw [encode, codeRuns_encodeAt (nested_op rfl)]
    simp only [codeRuns_op (show Op.write.piece = .act .write from rfl), Command.apply, exists_eq_left,
      Instr.Acts, Snapshot.travel_emit, Snapshot.byte_travel, Snapshot.travel_travel,
      Int.add_right_neg, Snapshot.travel_zero]

end Asm

end TapeCompiler
