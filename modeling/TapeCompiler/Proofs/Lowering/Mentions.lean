import TapeCompiler.Proofs.Lowering.CellNames
import TapeCompiler.Proofs.Lowering.OverCells
/-!
# Names in code

The names in the instructions of a lowered block are those of its cells and the width of a row
(`forall_names_lowerBlock`). As no variable is named like a flag, a flag among them is at least as
deep as the block (`depth_le_of_mem_names`).
-/
namespace TapeCompiler

open TapeCompiler.Asm

/-- The names among the operands. -/
def Asm.Instr.names (instr : Instr Ref) : List String := instr.operands.filterMap (·.2.name?)

/-- The names in the instructions of code, in the order of the text. -/
def Code.names (code : Code) : List String := code.flatMap Instr.names

theorem Asm.Instr.OverCells.names {P : String → Prop} {instr : Instr Ref} (h : instr.OverCells P)
    (hwidth : P rowWidthName) : ∀ x ∈ instr.names, P x := by
  intro x hx
  obtain ⟨⟨role, ref⟩, hoperand, href⟩ := List.mem_filterMap.1 hx
  cases h.operands _ hoperand with
  | cell hx =>
    cases href
    exact hx
  | amount n => cases href
  | width =>
    cases href
    exact hwidth

/-- What holds of the cells of a block and of the width of a row, holds of all names in its code. -/
theorem forall_names_lowerBlock {P : String → Prop} (hwidth : P rowWidthName) (block : Block)
    (depth : Int) (hcells : ∀ x ∈ Block.cells depth block, P x) :
    ∀ x ∈ (lowerBlock depth block).names, P x := by
  intro x hx
  obtain ⟨instr, hinstr, hx⟩ := List.mem_flatMap.1 hx
  exact (overCells_lowerBlock block depth hcells instr hinstr).names hwidth x hx

/-! ## Flags -/

/-- A block mentions no flag of a block further out. -/
theorem depth_le_of_mem_names {block : Block} {depth : Int} {flag : Flag} (hdepth : 0 ≤ depth)
    (hnames : ∀ x ∈ namesOf block, isReserved x = false) (hflag : flag.Natural)
    (h : flag.name ∈ (lowerBlock depth block).names) : depth ≤ flag.depth := by
  have hcells : ∀ x ∈ Block.cells depth block, x = flag.name → depth ≤ flag.depth := by
    refine Block.forall_mem_cells ?_ block depth hdepth ?_ ?_
    · intro he
      exact absurd he.symm flag.name_ne_scratchName
    · rintro other hother hdeep he
      rwa [← Flag.name_inj hother hflag he]
    · intro x hx he
      exact absurd he (ne_of_isReserved (hnames x hx) (isReserved_name flag hflag))
  have hwidth : rowWidthName = flag.name → depth ≤ flag.depth :=
    fun he => absurd he.symm flag.name_ne_rowWidthName
  exact forall_names_lowerBlock hwidth block depth hcells flag.name h rfl

end TapeCompiler
