import TapeCompiler.Proofs.Asm.Appending
import TapeCompiler.Proofs.Asm.FaultWords
/-!
# Counts that are too large

A number too large for a count is not noticed before its instruction is encoded. The fault is then
that of the first instruction that is not encoded, all operands of which are numbers
(`assemble_countTooLarge_iff`).
-/
namespace TapeCompiler.Asm

/-- The operand is a number, and not a negative one. -/
def Ref.IsNatural : Ref → Prop
  | .number n => 0 ≤ n
  | .name _ => False

/-- All operands are natural numbers, and one is too large for a count. -/
structure Instr.TooLarge (instr : Instr Ref) : Prop where
  natural : ∀ operand ∈ instr.operands, operand.2.IsNatural
  large : ∃ operand ∈ instr.operands, ¬operand.2.IsCount

/-- The first instruction that is not encoded has too large an operand. -/
def StopsAtCount (program : Numbered) : Prop :=
  ∃ before line instr after, program = before ++ (line, instr) :: after ∧
    (∀ entry ∈ before, ∀ operand ∈ entry.2.operands, operand.2.IsCount) ∧ instr.TooLarge

/-! ## One instruction -/

section

variable {instr : Instr Ref} {ref : Ref}

theorem Ref.IsNatural.offset_eq (h : ref.IsNatural) (instr : Instr Ref) :
    ref.offset instr = .ok ref.toNat := by
  cases ref with
  | name s => exact absurd h id
  | number n => exact if_neg (Int.not_lt.2 h)

theorem Ref.IsNatural.isCount_iff (h : ref.IsNatural) : ref.IsCount ↔ ref.toNat < countLimit := by
  cases ref with
  | name s => exact absurd h id
  | number n => exact (and_iff_right h).trans (Int.toNat_lt h).symm

theorem isNatural_of_offset {n : Nat} (h : ref.offset instr = .ok n) : ref.IsNatural := by
  cases ref with
  | name s => cases h
  | number m =>
    by_cases hm : m < 0
    · cases (if_pos hm).symm.trans h
    · exact Int.not_lt.1 hm

/-- No operand on its own is too large a count. -/
theorem offset_ne_countTooLarge : ref.offset instr ≠ .error .countTooLarge := by
  intro h
  cases ref with
  | name s => cases h
  | number n =>
    rw [Ref.offset] at h
    split at h <;> cases h

theorem offsets_countTooLarge_iff :
    instr.offsets = .error .countTooLarge ↔ instr.TooLarge := by
  constructor
  · intro h
    rcases bind_eq_error.1 h with h | ⟨resolved, htraverse, h⟩
    · obtain ⟨operand, -, hoperand⟩ := exists_of_traverse_eq_error h
      exact absurd hoperand offset_ne_countTooLarge
    · have hnatural : ∀ operand ∈ instr.operands, operand.2.IsNatural := by
        intro operand hmem
        obtain ⟨n, hn⟩ := forall_of_traverse_eq_ok htraverse operand hmem
        exact isNatural_of_offset hn
      refine ⟨hnatural, Classical.byContradiction fun hnone => ?_⟩
      have hcount : ∀ operand ∈ instr.operands, operand.2.IsCount := fun operand hmem =>
        Classical.byContradiction fun hlarge => hnone ⟨operand, hmem, hlarge⟩
      rw [if_pos] at h
      · cases h
      · rw [traverse_eq_map (fun _ _ => offset_eq_toNat) htraverse, Instr.operands_map,
          List.all_map, List.all_eq_true]
        exact fun operand hmem =>
          decide_eq_true ((hnatural operand hmem).isCount_iff.1 (hcount operand hmem))
  · rintro ⟨hnatural, operand, hmem, hlarge⟩
    have htraverse : instr.traverse (Ref.offset instr) = .ok (instr.map Ref.toNat) :=
      traverse_eq_ok fun operand hmem => (hnatural operand hmem).offset_eq instr
    rw [Instr.offsets, htraverse]
    refine if_neg fun hall => hlarge ?_
    rw [Instr.operands_map, List.all_map, List.all_eq_true] at hall
    exact (hnatural operand hmem).isCount_iff.2 (of_decide_eq_true (hall operand hmem))

theorem encodeRef_countTooLarge_iff (hdefine : instr.isDefine = false) :
    encodeRef instr = .error .countTooLarge ↔ instr.TooLarge := by
  rw [← offsets_countTooLarge_iff]
  unfold encodeRef
  split
  · cases hdefine
  · constructor <;> intro h <;> cases h
  · exact map_eq_error

end

/-! ## Programs -/

section

variable {program expanded : Numbered} {definitions : Definitions}

theorem Expansion.isDefine (h : Expansion definitions program expanded) :
    ∀ entry ∈ expanded, entry.2.isDefine = false := by
  induction h with
  | done => exact fun _ hmem => absurd hmem List.not_mem_nil
  | define _ _ ih => exact ih
  | keep hdefine _ ih =>
    refine List.forall_mem_cons.2 ⟨?_, ih⟩
    rw [Instr.isDefine_map]
    exact hdefine

theorem stopsAtCount_cons {line : Nat} {instr : Instr Ref} {rest : Numbered} :
    StopsAtCount ((line, instr) :: rest) ↔ instr.TooLarge ∨
      (∀ operand ∈ instr.operands, operand.2.IsCount) ∧ StopsAtCount rest := by
  constructor
  · rintro ⟨before, line', other, after, heq, hbefore, hlarge⟩
    rcases List.cons_eq_append_iff.1 heq with ⟨rfl, heq⟩ | ⟨before, rfl, rfl⟩
    · cases heq
      exact .inl hlarge
    · rw [List.forall_mem_cons] at hbefore
      exact .inr ⟨hbefore.1, before, line', other, after, rfl, hbefore.2, hlarge⟩
  · rintro (hlarge | ⟨hinstr, before, line', other, after, rfl, hbefore, hlarge⟩)
    · exact ⟨[], line, instr, rest, rfl, fun _ hmem => absurd hmem List.not_mem_nil, hlarge⟩
    · exact ⟨(line, instr) :: before, line', other, after, rfl,
        List.forall_mem_cons.2 ⟨hinstr, hbefore⟩, hlarge⟩

theorem encodeAll_countTooLarge_iff (hdefine : ∀ entry ∈ program, entry.2.isDefine = false) :
    (∃ line, encodeAll program = .error ⟨line, .countTooLarge⟩) ↔ StopsAtCount program := by
  induction program with
  | nil => simp [encodeAll, StopsAtCount]
  | cons entry rest ih =>
    obtain ⟨line, instr⟩ := entry
    rw [List.forall_mem_cons] at hdefine
    rw [stopsAtCount_cons, ← ih hdefine.2, ← encodeRef_countTooLarge_iff hdefine.1,
      ← encodeRef_eq_ok_iff hdefine.1, encodeAll]
    cases encodeRef instr with
    | error fault => simp
    | ok code => cases encodeAll rest <;> simp [bind, Except.bind, pure, Except.pure]

end

/-! ## Texts -/

theorem readExpanded_ne_countTooLarge {definitions : Definitions} {source : String} {line : Int} :
    readExpanded definitions source ≠ .error ⟨line, .countTooLarge⟩ := by
  intro h
  rcases bind_eq_error.1 h with h | ⟨program, -, h⟩
  · obtain ⟨_, text, -, -, hread⟩ := standsOn_of_readLines_error h
    exact ofReading_of_readLine hread
  · obtain ⟨_, _, _, -, heq⟩ := unresolved_of_expandFrom h
    cases heq

/-- Numbers too large for counts are the fault of a text that can be read and expanded, when all
instructions up to one with such a number are encoded. -/
theorem assemble_countTooLarge_iff {source : String} :
    (∃ line, assemble source = .error ⟨line, .countTooLarge⟩) ↔
      ∃ expanded, readExpanded [] source = .ok expanded ∧ StopsAtCount expanded := by
  rw [assemble_eq, assembleFrom]
  cases hread : readExpanded [] source with
  | error e =>
    constructor
    · rintro ⟨line, h⟩
      cases h
      exact absurd hread readExpanded_ne_countTooLarge
    · rintro ⟨_, h, -⟩
      cases h
  | ok expanded =>
    obtain ⟨program, -, hexpanded⟩ := bind_eq_ok.1 hread
    simp only [Except.ok.injEq, exists_eq_left']
    exact encodeAll_countTooLarge_iff (expansion_of_expandFrom hexpanded).isDefine

end TapeCompiler.Asm
