import TapeCompiler.Proofs.Asm.Expansion
import TapeCompiler.Proofs.Asm.Rendering
import TapeCompiler.Proofs.Lowering.Generated
/-!
# The operands of generated code

Whatever statements it comes from, the code of a block works on cells of the block only, moves by the
width of a row, and has numbers for all other operands (`overCells_lowerBlock`). It touches every
variable of the block (`touches_lowerBlock`).
-/
namespace TapeCompiler

open TapeCompiler.Asm

/-- The forms of generated instructions, with any numbers in them, that name only cells in `cell`. -/
def Asm.Instr.OverCells (cell : String → Prop) : Instr Ref → Prop
  | .sub (.name x) (.number _) | .set (.name x) (.number _) => cell x
  | .right (.name x) | .left (.name x) => x = rowWidthName
  | .openLoop (.name x) | .closeLoop (.name x) | .read (.name x) | .write (.name x) => cell x
  | .copy (.name x) targets =>
    cell x ∧ ∃ names : List String, targets = names.map Ref.name ∧ ∀ z ∈ names, cell z
  | _ => False

/-- Code of such instructions. -/
def Code.OverCells (cell : String → Prop) (code : Code) : Prop :=
  ∀ instr ∈ code, instr.OverCells cell

/-- The operands of such instructions. -/
inductive Asm.OperandOver (cell : String → Prop) : Role × Ref → Prop
  | cell {x : String} (h : cell x) : OperandOver cell (.cell, .name x)
  | amount (n : Int) : OperandOver cell (.amount, .number n)
  | width : OperandOver cell (.amount, .name rowWidthName)

section

variable {P : String → Prop} {instr : Instr Ref} {first second code : Code}

theorem Asm.Instr.OverCells.operands (h : instr.OverCells P) :
    ∀ operand ∈ instr.operands, OperandOver P operand := by
  unfold Instr.OverCells at h
  split at h
  · exact List.forall_mem_cons.2 ⟨.cell h, List.forall_mem_singleton.2 (.amount _)⟩
  · exact List.forall_mem_cons.2 ⟨.cell h, List.forall_mem_singleton.2 (.amount _)⟩
  · exact List.forall_mem_singleton.2 (h ▸ .width)
  · exact List.forall_mem_singleton.2 (h ▸ .width)
  · exact List.forall_mem_singleton.2 (.cell h)
  · exact List.forall_mem_singleton.2 (.cell h)
  · exact List.forall_mem_singleton.2 (.cell h)
  · exact List.forall_mem_singleton.2 (.cell h)
  · obtain ⟨hx, names, rfl, hz⟩ := h
    simp only [Instr.operands, List.forall_mem_cons, List.forall_mem_map]
    exact ⟨.cell hx, fun z hmem => .cell (hz z hmem)⟩
  · exact absurd h id

theorem mem_cellNames_iff {x : String} :
    x ∈ instr.cellNames ↔ (Role.cell, Ref.name x) ∈ instr.operands := by
  simp only [Instr.cellNames, List.mem_filterMap, Prod.exists]
  constructor
  · rintro ⟨role, ref, hmem, h⟩
    split at h
    · next hrole =>
      subst hrole
      cases ref with
      | number n => cases h
      | name y =>
        cases h
        exact hmem
    · cases h
  · intro hmem
    exact ⟨_, _, hmem, rfl⟩

theorem Asm.Instr.OverCells.cellNames (h : instr.OverCells P) : ∀ x ∈ instr.cellNames, P x := by
  intro x hx
  cases h.operands _ (mem_cellNames_iff.1 hx) with
  | cell hx => exact hx

theorem Asm.Instr.OverCells.not_define (h : instr.OverCells P) : instr.isDefine = false := by
  cases instr with
  | define name value => exact absurd h id
  | add | sub | set | right | left | openLoop | closeLoop | copy | read | write | comment => rfl

theorem Asm.Instr.OverCells.not_comment (h : instr.OverCells P) : instr.isComment = false := by
  cases instr with
  | comment text => exact absurd h id
  | define | add | sub | set | right | left | openLoop | closeLoop | copy | read | write => rfl

theorem Code.OverCells.nil : Code.OverCells P [] := fun _ hmem => absurd hmem List.not_mem_nil

theorem Code.OverCells.cons (h : instr.OverCells P) (hcode : Code.OverCells P code) :
    Code.OverCells P (instr :: code) := List.forall_mem_cons.2 ⟨h, hcode⟩

theorem Code.OverCells.append (hfirst : Code.OverCells P first) (hsecond : Code.OverCells P second) :
    Code.OverCells P (first ++ second) := List.forall_mem_append.2 ⟨hfirst, hsecond⟩

end

/-! ## The code of a block -/

section

variable {P : String → Prop} {flag x : String} {depth term : Int} {inner body : Code}

theorem overCells_setCell (hx : P x) (n : Int) : (setCell x n).OverCells P := hx

theorem overCells_whenFlag (hflag : P flag) (h : Code.OverCells P inner) :
    Code.OverCells P (whenFlag flag inner) :=
  Code.OverCells.cons hflag (h.append (.cons (overCells_setCell hflag 0) (.cons hflag .nil)))

theorem overCells_differenceInto {c : Comparison} (hflag : P flag) (hscratch : P scratchName)
    (hx : P c.name) : Code.OverCells P (differenceInto flag c) := by
  refine .cons (overCells_setCell hflag 0) (.cons ?_ (.cons ?_ (.cons hflag .nil)))
  · exact ⟨hx, [scratchName, flag], rfl, by simp [hscratch, hflag]⟩
  · exact ⟨hscratch, [c.name], rfl, by simp [hx]⟩

theorem overCells_gate {condition : Condition} (hcells : ∀ x ∈ condition.cells depth term, P x)
    (h : Code.OverCells P inner) : Code.OverCells P (gate depth term condition inner) := by
  induction condition generalizing term with
  | nil => exact h
  | cons c rest ih =>
    simp only [Condition.cells, List.forall_mem_cons] at hcells
    obtain ⟨hname, hscratch, hdifference, hequality, hcells⟩ := hcells
    have hinto : Code.OverCells P (differenceInto (Flag.difference depth term).name c) :=
      overCells_differenceInto hdifference hscratch hname
    rw [gate]
    unfold gateComparison
    cases c.test with
    | notEqual => exact hinto.append (overCells_whenFlag hdifference (ih hcells))
    | equal =>
      have hset (n : Int) : (setCell (Flag.equality depth term).name n).OverCells P := hequality
      exact ((Code.OverCells.cons (hset 1) hinto).append
        (overCells_whenFlag hdifference (.cons (hset 0) .nil))).append
          (overCells_whenFlag hequality (ih hcells))

end

section

variable {P : String → Prop}

mutual

theorem overCells_lowerStatement : ∀ (statement : Statement) (depth : Int),
    (∀ x ∈ statement.cells depth, P x) → Code.OverCells P (lowerStatement depth statement)
  | .input x, _, hcells | .output x, _, hcells | .assign x _, _, hcells =>
    .cons (hcells x List.mem_cons_self) .nil
  | .move .right, _, _ | .move .left, _, _ => .cons rfl .nil
  | .loop condition body, depth, hcells => by
    simp only [Statement.cells, List.forall_mem_append, List.forall_mem_cons] at hcells
    obtain ⟨⟨hagain, hcondition⟩, hbody⟩ := hcells
    have hset (n : Int) : (setCell (Flag.again depth).name n).OverCells P := hagain
    have hopen : (Instr.openLoop (.name (Flag.again depth).name)).OverCells P := hagain
    have hclose : (Instr.closeLoop (.name (Flag.again depth).name)).OverCells P := hagain
    have hb := overCells_lowerBlock body (depth + 1) hbody
    have hgate := overCells_gate hcondition (hb.append (.cons (hset 1) .nil))
    exact (Code.OverCells.cons (hset 1) (.cons hopen (.cons (hset 0) hgate))).append
      (.cons hclose .nil)
  | .branch condition body, depth, hcells => by
    simp only [Statement.cells, List.forall_mem_append] at hcells
    exact overCells_gate hcells.1 (overCells_lowerBlock body (depth + 1) hcells.2)
  | .branchElse condition body otherwise, depth, hcells => by
    simp only [Statement.cells, List.forall_mem_append, List.forall_mem_cons] at hcells
    obtain ⟨⟨⟨huntaken, hcondition⟩, hbody⟩, hotherwise⟩ := hcells
    have hset (n : Int) : (setCell (Flag.untaken depth).name n).OverCells P := huntaken
    have hb := overCells_lowerBlock body (depth + 1) hbody
    have ho := overCells_lowerBlock otherwise (depth + 1) hotherwise
    have hgate := overCells_gate hcondition (hb.append (.cons (hset 0) .nil))
    exact (Code.OverCells.cons (hset 1) hgate).append (overCells_whenFlag huntaken ho)

theorem overCells_lowerBlock : ∀ (block : Block) (depth : Int),
    (∀ x ∈ Block.cells depth block, P x) → Code.OverCells P (lowerBlock depth block)
  | [], _, _ => .nil
  | statement :: rest, depth, hcells => by
    rw [Block.cells, List.forall_mem_append] at hcells
    exact (overCells_lowerStatement statement depth hcells.1).append
      (overCells_lowerBlock rest depth hcells.2)

end

end

theorem not_define_lowerBlock {block : Block} {depth : Int} {instr : Instr Ref}
    (h : instr ∈ lowerBlock depth block) : instr.isDefine = false :=
  (overCells_lowerBlock block depth (fun _ => id) instr h).not_define

/-! ## The cells that code touches -/

/-- Code has an instruction on a cell. -/
def Code.Touches (code : Code) (x : String) : Prop := ∃ instr ∈ code, x ∈ instr.cellNames

section

variable {x flag : String} {instr : Instr Ref} {code first second inner body : Code}
  {depth term : Int}

theorem touches_append : Code.Touches (first ++ second) x ↔ first.Touches x ∨ second.Touches x := by
  simp only [Code.Touches, List.mem_append, or_and_right, exists_or]

theorem touches_cons : Code.Touches (instr :: code) x ↔ x ∈ instr.cellNames ∨ code.Touches x := by
  simp only [Code.Touches, List.mem_cons, or_and_right, exists_or, exists_eq_left]

theorem touches_whenFlag (h : inner.Touches x) : (whenFlag flag inner).Touches x := by
  rw [whenFlag, List.cons_append, touches_cons, touches_append]
  exact .inr (.inl h)

theorem touches_differenceInto (c : Comparison) : (differenceInto flag c).Touches c.name := by
  refine ⟨_, List.mem_cons_of_mem _ List.mem_cons_self, ?_⟩
  exact List.mem_cons_self

/-- A gate tests every comparison of its condition, and has what it guards in it. -/
theorem touches_gate {condition : Condition} (h : x ∈ condition.names ∨ inner.Touches x) :
    (gate depth term condition inner).Touches x := by
  induction condition generalizing term with
  | nil => exact h.resolve_left List.not_mem_nil
  | cons c rest ih =>
    rw [Condition.names, List.map_cons, List.mem_cons, or_assoc] at h
    rw [gate]
    unfold gateComparison
    cases c.test with
    | notEqual =>
      simp only [touches_append]
      rcases h with rfl | h
      · exact .inl (touches_differenceInto c)
      · exact .inr (touches_whenFlag (ih h))
    | equal =>
      simp only [touches_append, touches_cons]
      rcases h with rfl | h
      · exact .inl (.inl (.inr (touches_differenceInto c)))
      · exact .inr (touches_whenFlag (ih h))

mutual

theorem touches_lowerStatement : ∀ (statement : Statement) (depth : Int) {x : String},
    x ∈ statement.names → (lowerStatement depth statement).Touches x
  | .input _, _, _, h | .output _, _, _, h => ⟨_, List.mem_cons_self, h⟩
  | .assign _ _, _, _, h => ⟨_, List.mem_cons_self, h⟩
  | .move _, _, _, h => absurd h List.not_mem_nil
  | .loop condition body, depth, _, h => by
    rw [lowerStatement, gateLoop, touches_append, touches_append]
    refine .inl (.inr (touches_gate ((List.mem_append.1 h).imp_right fun h => ?_)))
    exact touches_append.2 (.inl (touches_lowerBlock body (depth + 1) h))
  | .branch condition body, depth, _, h =>
    touches_gate ((List.mem_append.1 h).imp_right (touches_lowerBlock body (depth + 1)))
  | .branchElse condition body otherwise, depth, _, h => by
    rw [lowerStatement, gateBranch, touches_append, touches_cons]
    rcases List.mem_append.1 h with h | h
    · refine .inl (.inr (touches_gate ((List.mem_append.1 h).imp_right fun h => ?_)))
      exact touches_append.2 (.inl (touches_lowerBlock body (depth + 1) h))
    · exact .inr (touches_whenFlag (touches_lowerBlock otherwise (depth + 1) h))

/-- The code of a block touches all variables of the block. -/
theorem touches_lowerBlock : ∀ (block : Block) (depth : Int) {x : String},
    x ∈ namesOf block → (lowerBlock depth block).Touches x
  | [], _, _, h => absurd h List.not_mem_nil
  | statement :: rest, depth, _, h => by
    rw [lowerBlock, touches_append]
    exact (List.mem_append.1 h).imp (touches_lowerStatement statement depth)
      (touches_lowerBlock rest depth)

end

end

end TapeCompiler
