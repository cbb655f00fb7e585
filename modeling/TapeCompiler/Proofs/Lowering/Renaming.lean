import TapeCompiler.Proofs.Lowering.Listing
import TapeCompiler.Proofs.Source.Renaming
/-!
# Renamed code

The code of a program with other names for its variables is the code of the program with these
names in it (`lowerBlock_rename`), since the scratch cell, the flags and the width keep their names.
If no two names of the code become one, its row has the same cells under the new names
(`names_layoutOf_rename`), and once all names are replaced by numbers there is no difference left
(`resolvedOf_rename`).
-/
namespace TapeCompiler

open TapeCompiler.Asm

/-! ## Instructions -/

def Asm.Ref.rename (σ : String → String) : Ref → Ref
  | .number n => .number n
  | .name x => .name (σ x)

/-- Code with every name renamed. -/
def Code.rename (σ : String → String) (code : Code) : Code := code.map (Instr.map (Ref.rename σ))

variable {σ : String → String}

@[simp] theorem Code.rename_nil : Code.rename σ [] = [] := rfl

@[simp] theorem Code.rename_cons (instr : Instr Ref) (code : Code) :
    Code.rename σ (instr :: code) = instr.map (Ref.rename σ) :: Code.rename σ code := rfl

@[simp] theorem Code.rename_append (first second : Code) :
    Code.rename σ (first ++ second) = Code.rename σ first ++ Code.rename σ second :=
  List.map_append

@[simp] theorem setCell_rename (x : String) (n : Int) :
    (setCell x n).map (Ref.rename σ) = setCell (σ x) n := rfl

theorem cellNames_rename (instr : Instr Ref) :
    (instr.map (Ref.rename σ)).cellNames = instr.cellNames.map σ := by
  rw [Instr.cellNames, Instr.operands_map, List.filterMap_map, Instr.cellNames,
    List.map_filterMap]
  refine List.filterMap_congr fun operand _ => ?_
  obtain ⟨role, ref⟩ := operand
  cases role <;> cases ref <;> rfl

theorem flatMap_cellNames_rename (code : Code) :
    (Code.rename σ code).flatMap Instr.cellNames = (code.flatMap Instr.cellNames).map σ := by
  rw [Code.rename, List.flatMap_map, List.map_flatMap]
  exact List.flatMap_congr fun instr _ => cellNames_rename instr

/-! ## Gates -/

theorem whenFlag_rename (flag : String) (inner : Code) :
    (whenFlag flag inner).rename σ = whenFlag (σ flag) (inner.rename σ) := by
  simp [whenFlag, setCell, Instr.map, Ref.rename]

theorem differenceInto_rename (hscratch : σ scratchName = scratchName) (flag : String)
    (c : Comparison) :
    (differenceInto flag c).rename σ = differenceInto (σ flag) (c.rename σ) := by
  simp [differenceInto, setCell, Instr.map, Ref.rename, Comparison.rename, hscratch]

section

variable (hσ : ∀ x, isReserved x = true → σ x = x) {depth : Int} (hdepth : 0 ≤ depth)

include hσ hdepth

theorem gateComparison_rename {term : Int} (hterm : 0 ≤ term) (c : Comparison) (inner : Code) :
    (gateComparison depth term c inner).rename σ =
      gateComparison depth term (c.rename σ) (inner.rename σ) := by
  have hdifference := hσ _ (isReserved_name (.difference depth term) ⟨hdepth, hterm⟩)
  have hequality := hσ _ (isReserved_name (.equality depth term) ⟨hdepth, hterm⟩)
  have hscratch := hσ _ isReserved_scratchName
  obtain ⟨name, test, value⟩ := c
  cases test with
  | equal =>
    simp [gateComparison, Comparison.rename, whenFlag_rename, differenceInto_rename hscratch,
      hdifference, hequality]
  | notEqual =>
    simp [gateComparison, Comparison.rename, whenFlag_rename, differenceInto_rename hscratch,
      hdifference]

theorem gate_rename {term : Int} (hterm : 0 ≤ term) (condition : Condition) (inner : Code) :
    (gate depth term condition inner).rename σ =
      gate depth term (condition.rename σ) (inner.rename σ) := by
  induction condition generalizing term with
  | nil => rfl
  | cons c rest ih =>
    rw [gate, gateComparison_rename hσ hdepth hterm, ih (Int.add_nonneg hterm (by decide))]
    rfl

theorem gateBranch_rename (condition : Condition) (body : Code) (otherwise : Option Code) :
    (gateBranch depth condition body otherwise).rename σ =
      gateBranch depth (condition.rename σ) (body.rename σ) (otherwise.map (Code.rename σ)) := by
  cases otherwise with
  | none => exact gate_rename hσ hdepth Int.le_rfl condition body
  | some otherwise =>
    have huntaken := hσ _ (isReserved_name (.untaken depth) hdepth)
    simp [gateBranch, gate_rename hσ hdepth, whenFlag_rename, huntaken]

theorem gateLoop_rename (condition : Condition) (body : Code) :
    (gateLoop depth condition body).rename σ =
      gateLoop depth (condition.rename σ) (body.rename σ) := by
  have hagain := hσ _ (isReserved_name (.again depth) hdepth)
  simp [gateLoop, gate_rename hσ hdepth, setCell, Instr.map, Ref.rename, hagain]

end

/-! ## Blocks -/

mutual

theorem lowerStatement_rename (hσ : ∀ x, isReserved x = true → σ x = x) :
    ∀ (statement : Statement) (depth : Int), 0 ≤ depth →
      lowerStatement depth (statement.rename σ) = (lowerStatement depth statement).rename σ
  | .input _, _, _ | .output _, _, _ | .assign _ _, _, _ => rfl
  | .move direction, _, _ => by
    have hwidth := hσ _ isReserved_rowWidthName
    cases direction <;> simp [Statement.rename, lowerStatement, Instr.map, Ref.rename, hwidth]
  | .loop condition body, depth, hdepth => by
    simp only [Statement.rename, lowerStatement, gateLoop_rename hσ hdepth,
      lowerBlock_rename hσ body (depth + 1) (by omega)]
  | .branch condition body, depth, hdepth => by
    simp only [Statement.rename, lowerStatement, gateBranch_rename hσ hdepth,
      lowerBlock_rename hσ body (depth + 1) (by omega), Option.map_none]
  | .branchElse condition body otherwise, depth, hdepth => by
    simp only [Statement.rename, lowerStatement, gateBranch_rename hσ hdepth,
      lowerBlock_rename hσ body (depth + 1) (by omega),
      lowerBlock_rename hσ otherwise (depth + 1) (by omega), Option.map_some]

/-- Renaming the variables of a block renames them in its code. -/
theorem lowerBlock_rename (hσ : ∀ x, isReserved x = true → σ x = x) :
    ∀ (block : Block) (depth : Int), 0 ≤ depth →
      lowerBlock depth (Block.rename σ block) = (lowerBlock depth block).rename σ
  | [], _, _ => rfl
  | statement :: rest, depth, hdepth => by
    simp only [Block.rename, lowerBlock, lowerStatement_rename hσ statement depth hdepth,
      lowerBlock_rename hσ rest depth hdepth, Code.rename_append]

end

/-! ## Layouts -/

namespace Layout

variable {layout renamed : Layout}

theorem names_insert_rename (h : renamed.names = layout.names.map σ) {x : String}
    (hσ : Set.InjOn σ {y | y ∈ layout.names ∨ y = x}) :
    (renamed.insert (σ x)).names = (layout.insert x).names.map σ := by
  have hmem : σ x ∈ renamed.names ↔ x ∈ layout.names := by
    rw [h, List.mem_map]
    constructor
    · rintro ⟨y, hy, heq⟩
      exact hσ (.inl hy) (.inr rfl) heq ▸ hy
    · intro hx
      exact ⟨x, hx, rfl⟩
  by_cases hx : x ∈ layout.names
  · rw [names_insert_of_mem (hmem.2 hx), names_insert_of_mem hx, h]
  · rw [names_insert_of_not_mem (mt hmem.1 hx), names_insert_of_not_mem hx, h, List.map_append,
      List.map_singleton]

theorem names_ofNames_rename {names : List String} (hσ : Set.InjOn σ {x | x ∈ names}) :
    (ofNames (names.map σ)).names = (ofNames names).names.map σ := by
  suffices h : ∀ layout renamed : Layout, renamed.names = layout.names.map σ →
      Set.InjOn σ {x | x ∈ layout.names ∨ x ∈ names} →
      ((names.map σ).foldl insert renamed).names = (names.foldl insert layout).names.map σ by
    exact h empty empty rfl (by simpa [empty] using hσ)
  clear hσ
  induction names with
  | nil => exact fun _ _ h _ => h
  | cons first rest ih =>
    intro layout renamed h hσ
    refine ih _ _ (names_insert_rename h (hσ.mono ?_)) (hσ.mono ?_)
    · rintro x (hx | rfl)
      · exact .inl hx
      · exact .inr List.mem_cons_self
    · rintro x (hx | hx)
      · rcases mem_names_insert.1 hx with hx | rfl
        · exact .inl hx
        · exact .inr List.mem_cons_self
      · exact .inr (List.mem_cons_of_mem _ hx)

variable (hnames : renamed.names = layout.names.map σ)

include hnames

theorem width_rename : renamed.width = layout.width := by
  rw [width, hnames, List.length_map, width]

theorem symbols_rename :
    renamed.symbols = layout.symbols.map fun (x, off) => (σ x, off) := by
  rw [symbols, hnames, symbols, List.zipIdx_map]
  rfl

theorem offset?_rename (hσ : Set.InjOn σ {x | x ∈ layout.names}) {x : String}
    (hx : x ∈ layout.names) : renamed.offset? (σ x) = layout.offset? x := by
  obtain ⟨off, hoff⟩ := exists_offset? hx
  obtain ⟨hlt, hname, hfirst⟩ := List.idxOf?_eq_some_iff.1 hoff
  rw [hoff]
  refine List.idxOf?_eq_some_iff.2 ⟨by simpa [hnames] using hlt, by simp [hnames, hname], ?_⟩
  intro j hj heq
  simp only [hnames, List.getElem_map] at heq
  exact hfirst j hj (hσ (List.getElem_mem _) hx heq)

/-- The operands of generated instructions stand for the same numbers under their new names. -/
theorem operand_rename (hwidth : σ rowWidthName = rowWidthName)
    (hσ : Set.InjOn σ {x | x ∈ layout.names ∨ x = rowWidthName}) {ref : Ref}
    (href : ref.Generated layout.Cell) :
    renamed.operand (ref.rename σ) = layout.operand ref := by
  cases ref with
  | number n => rfl
  | name x =>
    rw [Ref.rename, operand, operand]
    by_cases hx : x = rowWidthName
    · rw [hx, hwidth, if_pos rfl, if_pos rfl, width_rename hnames]
    · obtain ⟨hmem, -⟩ := href.resolve_right hx
      have hne : σ x ≠ rowWidthName :=
        fun heq => hx (hσ (.inl hmem) (.inr rfl) (heq.trans hwidth.symm))
      rw [if_neg hne, if_neg hx, offset?_rename hnames (hσ.mono fun _ => .inl) hmem]

end Layout

/-! ## Programs -/

/-- A renaming that keeps the internal names and keeps all names of a program apart. -/
structure KeepsApart (program : Block) (σ : String → String) : Prop where
  internal : ∀ x, isReserved x = true → σ x = x
  injOn : Set.InjOn σ {x | x ∈ namesOf program ∨ isReserved x = true}

section

variable {program : Block}

theorem names_layoutOf_rename (hσ : KeepsApart program σ) :
    (layoutOf (Block.rename σ program)).names = (layoutOf program).names.map σ := by
  have hfirst : Set.InjOn σ {x | x ∈ namesOf program} := hσ.injOn.mono fun _ => .inl
  have hall : Set.InjOn σ {x | x ∈ (Layout.ofNames (namesOf program)).names ++
      (lowerBlock 0 program).flatMap Instr.cellNames} := by
    refine hσ.injOn.mono fun x hx => mem_layoutOf ?_
    exact Layout.mem_names_ofNames.2 hx
  rw [layoutOf, Layout.ofCode, namesOf_rename, Layout.names_ofNames_rename hfirst,
    lowerBlock_rename hσ.internal program 0 Int.le_rfl, flatMap_cellNames_rename, ← List.map_append,
    Layout.names_ofNames_rename hall, layoutOf, Layout.ofCode]

/-- Behind offsets for names no renaming shows. -/
theorem resolvedOf_rename (hwf : Block.WellFormed program)
    (hvariables : ∀ x ∈ namesOf program, isReserved x = false) (hσ : KeepsApart program σ) :
    resolvedOf (Block.rename σ program) = resolvedOf program := by
  rw [resolvedOf, lowerBlock_rename hσ.internal program 0 Int.le_rfl, Code.rename, List.map_map,
    resolvedOf]
  refine List.map_congr_left fun instr hmem => ?_
  refine (Instr.map_map _ _ instr).trans (Instr.map_congr fun operand hoperand => ?_)
  refine Layout.operand_rename (names_layoutOf_rename hσ)
    (hσ.internal _ isReserved_rowWidthName) (hσ.injOn.mono ?_)
    ((generated_layoutOf hwf hvariables instr hmem).operands operand hoperand)
  rintro x (hx | rfl)
  · exact mem_layoutOf hx
  · exact .inr isReserved_rowWidthName

end

end TapeCompiler
