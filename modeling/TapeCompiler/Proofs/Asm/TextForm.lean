import TapeCompiler.Proofs.Asm.Expansion
import TapeCompiler.Proofs.Asm.Rendering
/-!
# Instructions and their text

Reading a text drops its comments, and nothing that is done to instructions afterwards depends on
them: they define nothing, hold no operands and have no code. Since the instructions that are left
keep their lines, a text is assembled as the instructions are from which it was written, errors
included (`assemble_render`).
-/
namespace TapeCompiler.Asm

/-- The instructions that a reader of their text gets to see. -/
def withoutComments (program : Numbered) : Numbered :=
  program.filter fun entry => !entry.2.isComment

theorem withoutComments_cons_comment (line : Nat) (text : String) (rest : Numbered) :
    withoutComments ((line, .comment text) :: rest) = withoutComments rest := rfl

theorem withoutComments_cons {line : Nat} {instr : Instr Ref} (h : instr.isComment = false)
    (rest : Numbered) :
    withoutComments ((line, instr) :: rest) = (line, instr) :: withoutComments rest :=
  List.filter_cons_of_pos (by simp [h])

theorem Instr.isComment_map {α β : Type} (f : α → β) (instr : Instr α) :
    (instr.map f).isComment = instr.isComment := by
  cases instr <;> rfl

theorem Instr.eq_comment {α : Type} {instr : Instr α} (h : instr.isComment = true) :
    ∃ text, instr = .comment text := by
  cases instr with
  | comment text => exact ⟨text, rfl⟩
  | _ => cases h

/-- Expansion commutes with the dropping of comments. -/
theorem expandFrom_withoutComments (definitions : Definitions) (program : Numbered) :
    expandFrom definitions (withoutComments program) =
      (expandFrom definitions program).map withoutComments := by
  induction program generalizing definitions with
  | nil => rfl
  | cons entry rest ih =>
    obtain ⟨line, instr⟩ := entry
    cases hdefine : instr.isDefine with
    | true =>
      obtain ⟨name, value, rfl⟩ := instr.eq_define hdefine
      rw [withoutComments_cons rfl, expandFrom, expandFrom]
      cases value.resolve definitions with
      | number n => exact ih _
      | name s => rfl
    | false =>
      rw [expandFrom_cons hdefine, map_map]
      cases hcomment : instr.isComment with
      | true =>
        obtain ⟨text, rfl⟩ := instr.eq_comment hcomment
        exact ih definitions
      | false =>
        rw [withoutComments_cons hcomment, expandFrom_cons hdefine, ih, map_map]
        congr 1
        funext expanded
        exact (withoutComments_cons (by rw [Instr.isComment_map, hcomment]) expanded).symm

/-- Comments have no code. -/
theorem encodeAll_withoutComments (program : Numbered) :
    encodeAll (withoutComments program) = encodeAll program := by
  induction program with
  | nil => rfl
  | cons entry rest ih =>
    obtain ⟨line, instr⟩ := entry
    cases hcomment : instr.isComment with
    | true =>
      obtain ⟨text, rfl⟩ := instr.eq_comment hcomment
      rw [withoutComments_cons_comment, ih, encodeAll, encodeRef]
      cases encodeAll rest <;> rfl
    | false => rw [withoutComments_cons hcomment, encodeAll, encodeAll, ih]

theorem assembleNumbered_withoutComments (program : Numbered) :
    assembleNumbered (withoutComments program) = assembleNumbered program := by
  rw [assembleNumbered, assembleNumbered, expand, expand, expandFrom_withoutComments]
  cases expandFrom [] program with
  | error e => rfl
  | ok expanded => exact encodeAll_withoutComments expanded

/-- **Text and instructions agree.** From the text of instructions the same instructions are read,
comments apart, each with its place as its line; and the text is assembled as they are: to the same
code, or to the same error at the same line. -/
theorem assemble_render {instrs : List (Instr Ref)} (h : ∀ instr ∈ instrs, instr.Written)
    (hshort : ∀ instr ∈ instrs, instr.Short) :
    readProgram (render instrs) =
        .ok ((numbered instrs).filter fun entry => !entry.2.isComment) ∧
      assemble (render instrs) = assembleInstrs instrs := by
  have hread := readProgram_render h hshort
  refine ⟨hread, ?_⟩
  rw [assemble, hread]
  exact assembleNumbered_withoutComments (numbered instrs)

theorem assemble_render_copy :
    readProgram (render [.define "n" (.number 2), .comment "the next row", .right (.name "n"),
        .copy (.number 0) [.name "x"]]) =
      .ok [(1, .define "n" (.number 2)), (3, .right (.name "n")),
        (4, .copy (.number 0) [.name "x"])] ∧
    assemble (render [.define "n" (.number 2), .comment "the next row", .right (.name "n"),
        .copy (.number 0) [.name "x"]]) =
      .error ⟨4, .unresolvedOperand "x" (.copy (.number 0) [.name "x"])⟩ := by
  refine assemble_render ?_ (by decide)
  simp only [List.forall_mem_cons]
  exact ⟨⟨by decide, by decide⟩, ⟨by decide, by decide⟩, ⟨by decide, trivial⟩,
    ⟨by decide, by simp⟩, by simp⟩

end TapeCompiler.Asm
