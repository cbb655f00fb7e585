import TapeCompiler.Lowering.Generate
import TapeCompiler.Proofs.Lowering.FlagName
import TapeCompiler.Proofs.Source.WellFormed
/-!
# Generated instructions

Code that is lowered from statements uses few forms of instructions (`generated_lowerBlock`): its
numbers are those of the program, it copies from no cell to itself, and the cells that it touches
are the variables of the program, flags, and the scratch cell (`Block.cells`).
-/
namespace TapeCompiler

open TapeCompiler.Asm

/-- The forms of generated instructions that touch only the cells in `cell`. -/
def Asm.Instr.Generated (cell : String → Prop) : Instr Ref → Prop
  | .sub (.name x) (.number n) | .set (.name x) (.number n) => cell x ∧ 0 ≤ n ∧ n ≤ 255
  | .right (.name x) | .left (.name x) => x = rowWidthName
  | .openLoop (.name x) | .closeLoop (.name x) | .read (.name x) | .write (.name x) => cell x
  | .copy (.name x) targets =>
    cell x ∧ ∃ y names, targets = (y :: names).map Ref.name ∧ ∀ z ∈ y :: names, cell z ∧ z ≠ x
  | _ => False

/-- Code of such instructions. -/
def Code.Generated (cell : String → Prop) (code : Code) : Prop :=
  ∀ instr ∈ code, instr.Generated cell

section

variable {P Q : String → Prop} {instr : Instr Ref} {first second code : Code}

theorem cellNames_copy (x : String) (names : List String) :
    (Instr.copy (.name x) (names.map Ref.name)).cellNames = x :: names := by
  simp [Instr.cellNames, Instr.operands, Ref.name?, List.filterMap_map, Function.comp_def]

/-- Only the cells that an instruction does touch count. -/
theorem Asm.Instr.Generated.mono (h : instr.Generated P)
    (hPQ : ∀ x ∈ instr.cellNames, P x → Q x) : instr.Generated Q := by
  unfold Instr.Generated at h ⊢
  split at h
  · exact ⟨hPQ _ List.mem_cons_self h.1, h.2⟩
  · exact ⟨hPQ _ List.mem_cons_self h.1, h.2⟩
  · exact h
  · exact h
  · exact hPQ _ List.mem_cons_self h
  · exact hPQ _ List.mem_cons_self h
  · exact hPQ _ List.mem_cons_self h
  · exact hPQ _ List.mem_cons_self h
  · obtain ⟨hx, y, names, rfl, hz⟩ := h
    rw [cellNames_copy, List.forall_mem_cons] at hPQ
    exact ⟨hPQ.1 hx, y, names, rfl, fun z hmem => ⟨hPQ.2 z hmem (hz z hmem).1, (hz z hmem).2⟩⟩
  · exact h

theorem Code.Generated.nil : Code.Generated P [] := by
  intro instr h
  simp at h

theorem Code.Generated.cons (h : instr.Generated P) (hcode : Code.Generated P code) :
    Code.Generated P (instr :: code) := List.forall_mem_cons.2 ⟨h, hcode⟩

theorem Code.Generated.append (hf : Code.Generated P first) (hs : Code.Generated P second) :
    Code.Generated P (first ++ second) := List.forall_mem_append.2 ⟨hf, hs⟩

end

/-! ## The cells of a block -/

def Condition.cells (depth term : Int) : Condition → List String
  | [] => []
  | c :: rest =>
    c.name :: scratchName :: (Flag.difference depth term).name :: (Flag.equality depth term).name
      :: Condition.cells depth (term + 1) rest

mutual

def Statement.cells (depth : Int) : Statement → List String
  | .input name | .output name | .assign name _ => [name]
  | .move _ => []
  | .loop condition body =>
    (Flag.again depth).name :: condition.cells depth 0 ++ Block.cells (depth + 1) body
  | .branch condition body => condition.cells depth 0 ++ Block.cells (depth + 1) body
  | .branchElse condition body otherwise =>
    (Flag.untaken depth).name :: condition.cells depth 0 ++ Block.cells (depth + 1) body
      ++ Block.cells (depth + 1) otherwise

/-- The names of the cells that the code of a block may touch, some of them more than once. -/
def Block.cells (depth : Int) : Block → List String
  | [] => []
  | statement :: rest => statement.cells depth ++ Block.cells depth rest

end

theorem Condition.names_subset_cells {condition : Condition} {depth term : Int} {x : String}
    (h : x ∈ condition.names) : x ∈ condition.cells depth term := by
  induction condition generalizing term with
  | nil => exact h
  | cons c rest ih =>
    rcases List.mem_cons.1 h with rfl | h
    · exact List.mem_cons_self
    · simp only [Condition.cells, List.mem_cons, ih h, or_true]

mutual

theorem Statement.names_subset_cells : ∀ (statement : Statement) (depth : Int) {x : String},
    x ∈ statement.names → x ∈ statement.cells depth
  | .input _, _, _, h | .output _, _, _, h | .assign _ _, _, _, h => h
  | .move _, _, _, h => absurd h List.not_mem_nil
  | .loop condition body, depth, _, h => by
    simp only [Statement.cells, List.mem_append, List.mem_cons]
    rcases List.mem_append.1 h with h | h
    · exact .inl (.inr (condition.names_subset_cells h))
    · exact .inr (Block.names_subset_cells body (depth + 1) h)
  | .branch condition body, depth, _, h => by
    simp only [Statement.cells, List.mem_append]
    rcases List.mem_append.1 h with h | h
    · exact .inl (condition.names_subset_cells h)
    · exact .inr (Block.names_subset_cells body (depth + 1) h)
  | .branchElse condition body otherwise, depth, _, h => by
    simp only [Statement.cells, List.mem_append, List.mem_cons]
    rcases List.mem_append.1 h with h | h
    · rcases List.mem_append.1 h with h | h
      · exact .inl (.inl (.inr (condition.names_subset_cells h)))
      · exact .inl (.inr (Block.names_subset_cells body (depth + 1) h))
    · exact .inr (Block.names_subset_cells otherwise (depth + 1) h)

theorem Block.names_subset_cells : ∀ (block : Block) (depth : Int) {x : String},
    x ∈ namesOf block → x ∈ Block.cells depth block
  | [], _, _, h => h
  | statement :: rest, depth, _, h => by
    simp only [Block.cells, List.mem_append]
    rcases List.mem_append.1 h with h | h
    · exact .inl (statement.names_subset_cells depth h)
    · exact .inr (Block.names_subset_cells rest depth h)

end

/-! ## The code of a block -/

section

variable {P : String → Prop} {flag x : String} {n depth term : Int} {inner body : Code}

theorem generated_setCell (hx : P x) (hlow : 0 ≤ n) (hhigh : n ≤ 255) :
    (setCell x n).Generated P := ⟨hx, hlow, hhigh⟩

theorem generated_whenFlag (hflag : P flag) (h : Code.Generated P inner) :
    Code.Generated P (whenFlag flag inner) := by
  rw [whenFlag, List.cons_append]
  refine .cons hflag (h.append (.cons (generated_setCell hflag ?_ ?_) (.cons hflag .nil)))
  · decide
  · decide

theorem generated_differenceInto {c : Comparison} (hc : c.WellFormed) (hflag : P flag)
    (hscratch : P scratchName) (hx : P c.name) (hxs : c.name ≠ scratchName)
    (hxf : c.name ≠ flag) : Code.Generated P (differenceInto flag c) := by
  refine .cons (generated_setCell hflag (by decide) (by decide)) (.cons ?_ (.cons ?_ (.cons ?_ .nil)))
  · refine ⟨hx, scratchName, [flag], rfl, ?_⟩
    simp only [List.forall_mem_cons]
    exact ⟨⟨hscratch, hxs.symm⟩, ⟨hflag, hxf.symm⟩, by simp⟩
  · refine ⟨hscratch, c.name, [], rfl, ?_⟩
    simp only [List.forall_mem_cons]
    exact ⟨⟨hx, hxs⟩, by simp⟩
  · exact ⟨hflag, hc.2⟩

theorem generated_gate {condition : Condition} (hdepth : 0 ≤ depth) (hterm : 0 ≤ term)
    (hwf : ∀ c ∈ condition, c.WellFormed) (hnames : ∀ c ∈ condition, isReserved c.name = false)
    (hcells : ∀ x ∈ condition.cells depth term, P x) (h : Code.Generated P inner) :
    Code.Generated P (gate depth term condition inner) := by
  induction condition generalizing term with
  | nil => exact h
  | cons c rest ih =>
    rw [List.forall_mem_cons] at hwf hnames
    simp only [Condition.cells, List.forall_mem_cons] at hcells
    obtain ⟨hx, hscratch, hd, he, hcells⟩ := hcells
    have hrest := ih (by omega) hwf.2 hnames.2 hcells
    have hdifference : Code.Generated P
        (differenceInto (Flag.difference depth term).name c) :=
      generated_differenceInto hwf.1 hd hscratch hx
        (ne_of_isReserved hnames.1 isReserved_scratchName)
        (ne_of_isReserved hnames.1 (isReserved_name (.difference depth term) ⟨hdepth, hterm⟩))
    rw [gate]
    unfold gateComparison
    cases c.test with
    | notEqual => exact hdifference.append (generated_whenFlag hd hrest)
    | equal =>
      refine ((Code.Generated.cons ?_ hdifference).append
        (generated_whenFlag hd (.cons ?_ .nil))).append (generated_whenFlag he hrest)
      · exact generated_setCell he (by decide) (by decide)
      · exact generated_setCell he (by decide) (by decide)

end

section

variable {P : String → Prop}

mutual

theorem generated_lowerStatement : ∀ (statement : Statement) (depth : Int), 0 ≤ depth →
    statement.WellFormed → (∀ x ∈ statement.names, isReserved x = false) →
      (∀ x ∈ statement.cells depth, P x) → Code.Generated P (lowerStatement depth statement)
  | .input name, _, _, _, _, hcells | .output name, _, _, _, _, hcells =>
    .cons (hcells name List.mem_cons_self) .nil
  | .assign name _, _, _, hwf, _, hcells =>
    .cons (generated_setCell (hcells name List.mem_cons_self) hwf.2.1 hwf.2.2) .nil
  | .move .right, _, _, _, _, _ | .move .left, _, _, _, _, _ => .cons rfl .nil
  | .loop condition body, depth, hdepth, hwf, hnames, hcells => by
    simp only [Statement.cells, List.forall_mem_append, List.forall_mem_cons] at hcells
    simp only [Statement.names, List.forall_mem_append] at hnames
    have hb := generated_lowerBlock body (depth + 1) (by omega) hwf.2 hnames.2 hcells.2
    have hset : ∀ n : Int, 0 ≤ n → n ≤ 255 → (setCell (Flag.again depth).name n).Generated P :=
      fun n => generated_setCell hcells.1.1
    have hset0 := hset 0 (by decide) (by decide)
    have hset1 := hset 1 (by decide) (by decide)
    have hopen : (Instr.openLoop (.name (Flag.again depth).name)).Generated P := hcells.1.1
    have hclose : (Instr.closeLoop (.name (Flag.again depth).name)).Generated P := hcells.1.1
    have hgate := generated_gate hdepth Int.le_rfl hwf.1.2
      (fun c hc => hnames.1 _ (List.mem_map_of_mem hc)) hcells.1.2 (hb.append (.cons hset1 .nil))
    have hstart : Code.Generated P [setCell (Flag.again depth).name 1,
        .openLoop (.name (Flag.again depth).name), setCell (Flag.again depth).name 0] :=
      .cons hset1 (.cons hopen (.cons hset0 .nil))
    exact (hstart.append hgate).append (.cons hclose .nil)
  | .branch condition body, depth, hdepth, hwf, hnames, hcells => by
    simp only [Statement.cells, List.forall_mem_append] at hcells
    simp only [Statement.names, List.forall_mem_append] at hnames
    have hb := generated_lowerBlock body (depth + 1) (by omega) hwf.2 hnames.2 hcells.2
    exact generated_gate hdepth Int.le_rfl hwf.1.2
      (fun c hc => hnames.1 _ (List.mem_map_of_mem hc)) hcells.1 hb
  | .branchElse condition body otherwise, depth, hdepth, hwf, hnames, hcells => by
    simp only [Statement.cells, List.forall_mem_append, List.forall_mem_cons] at hcells
    simp only [Statement.names, List.forall_mem_append] at hnames
    have hb := generated_lowerBlock body (depth + 1) (by omega) hwf.2.1 hnames.1.2 hcells.1.2
    have ho := generated_lowerBlock otherwise (depth + 1) (by omega) hwf.2.2 hnames.2 hcells.2
    have hset : ∀ n : Int, 0 ≤ n → n ≤ 255 → (setCell (Flag.untaken depth).name n).Generated P :=
      fun n => generated_setCell hcells.1.1.1
    have hset0 := hset 0 (by decide) (by decide)
    have hset1 := hset 1 (by decide) (by decide)
    have hgate := generated_gate hdepth Int.le_rfl hwf.1.2
      (fun c hc => hnames.1.1 _ (List.mem_map_of_mem hc)) hcells.1.1.2
      (hb.append (.cons hset0 .nil))
    exact (Code.Generated.cons hset1 hgate).append (generated_whenFlag hcells.1.1.1 ho)

theorem generated_lowerBlock : ∀ (block : Block) (depth : Int), 0 ≤ depth →
    Block.WellFormed block → (∀ x ∈ namesOf block, isReserved x = false) →
      (∀ x ∈ Block.cells depth block, P x) → Code.Generated P (lowerBlock depth block)
  | [], _, _, _, _, _ => .nil
  | statement :: rest, depth, hdepth, hwf, hnames, hcells => by
    rw [namesOf, List.forall_mem_append] at hnames
    rw [Block.cells, List.forall_mem_append] at hcells
    exact (generated_lowerStatement statement depth hdepth hwf.1 hnames.1 hcells.1).append
      (generated_lowerBlock rest depth hdepth hwf.2 hnames.2 hcells.2)

end

end

end TapeCompiler
