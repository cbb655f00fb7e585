import Mathlib.Data.List.Forall2
import TapeCompiler.Proofs.Asm.Expansion
import TapeCompiler.Proofs.Machine.Matching
/-!
# Brackets of assembled code

The code of a loop bracket is one bracket between moves, and the code of every other instruction is
balanced (`contributes_encode`). Balanced code changes nothing about the loops that are open, so the
brackets of a whole program match exactly if its loops do, whatever their operands are
(`assembleInstrs_brackets`).
-/
namespace TapeCompiler

/-! ## Balanced code in between -/

theorem Nested.closes_append {code : List Op} (h : Nested code) (openings : List Unit)
    (ps : List (Piece Command Unit)) :
    Closes openings (code.map Op.piece ++ ps) ↔ Closes openings ps := by
  obtain ⟨nest, hnest⟩ := WellNested.exists_nest h
  rw [← hnest]
  exact closes_pieces_append nest openings ps

/-- What follows a piece counts only for the loops that it closes. -/
theorem closes_cons_congr {ι : Type} {ps qs : List (Piece ι Unit)}
    (h : ∀ openings, Closes openings ps ↔ Closes openings qs) (piece : Piece ι Unit)
    (openings : List Unit) : Closes openings (piece :: ps) ↔ Closes openings (piece :: qs) := by
  cases piece with
  | act instr => exact h openings
  | opening label => exact h (label :: openings)
  | closing label =>
    cases openings with
    | nil => exact Iff.rfl
    | cons _ openings => exact and_congr_right fun _ => h openings

theorem ofChar?_comp_symbol : Bracket.ofChar? ∘ Op.symbol = Op.bracket? := by
  funext op
  cases op <;> rfl

theorem map_ofChar?_codeText (code : List Op) :
    (codeText code).toList.map Bracket.ofChar? = code.map Op.bracket? := by
  rw [codeText, String.toList_ofList, List.map_map, ofChar?_comp_symbol]

theorem filterMap_ofChar?_codeText (code : List Op) :
    (codeText code).toList.filterMap Bracket.ofChar? = code.filterMap Op.bracket? := by
  rw [codeText, String.toList_ofList, List.filterMap_map, ofChar?_comp_symbol]

theorem balancedText_codeText (code : List Op) : BalancedText (codeText code).toList ↔ Nested code := by
  rw [← balanced_map_ofChar?, map_ofChar?_codeText, ← wellNested_iff_balanced, Nested]

namespace Asm

/-! ## Instructions as brackets -/

/-- The bracket that an instruction is, if it is one. -/
def Instr.bracket? {α : Type} : Instr α → Option Bracket
  | .openLoop _ => some .opening
  | .closeLoop _ => some .closing
  | _ => none

/-- An instruction when nothing counts but its being a bracket. -/
def Instr.mark {α : Type} (instr : Instr α) : Piece Unit Unit :=
  match instr.bracket? with
  | some .opening => .opening ()
  | some .closing => .closing ()
  | none => .act ()

theorem Instr.bracket?_map {α β : Type} (f : α → β) (instr : Instr α) :
    (instr.map f).bracket? = instr.bracket? := by
  cases instr <;> rfl

theorem Instr.mark_map {α β : Type} (f : α → β) (instr : Instr α) :
    (instr.map f).mark = instr.mark := by
  rw [mark, bracket?_map, mark]

theorem Instr.piece_of_bracket? {α : Type} {instr : Instr α} (h : instr.bracket? = none) :
    instr.piece = .act instr := by
  cases instr with
  | openLoop | closeLoop => cases h
  | _ => rfl

/-! ## Code of instructions -/

theorem closes_encodeAt (cell : Nat) (op : Op) (openings : List Unit)
    (ps : List (Piece Command Unit)) :
    Closes openings ((encodeAt cell [op]).map Op.piece ++ ps) ↔ Closes openings (op.piece :: ps) := by
  rw [encodeAt, List.append_assoc, List.map_append, List.append_assoc,
    (nested_right cell).closes_append, List.map_append, List.map_singleton, List.append_assoc,
    List.singleton_append]
  exact closes_cons_congr (fun openings => (nested_left cell).closes_append openings ps) _ _

/-- The code of instructions closes the loops that the instructions close. -/
theorem closes_encode_all (instrs : List (Instr Nat)) (openings : List Unit) :
    Closes openings ((instrs.flatMap encode).map Op.piece) ↔
      Closes openings (instrs.map Instr.mark) := by
  induction instrs generalizing openings with
  | nil => exact Iff.rfl
  | cons instr rest ih =>
    rw [List.flatMap_cons, List.map_append, List.map_cons]
    cases hbracket : instr.bracket? with
    | none =>
      rw [(nested_encode (instr.piece_of_bracket? hbracket)).closes_append, ih, Instr.mark, hbracket]
      exact Iff.rfl
    | some bracket =>
      cases instr with
      | openLoop cell =>
        rw [encode, closes_encodeAt]
        exact ih (() :: openings)
      | closeLoop cell =>
        rw [encode, closes_encodeAt]
        cases openings with
        | nil => exact Iff.rfl
        | cons _ openings => exact and_congr_right fun _ => ih openings
      | _ => cases hbracket

theorem filterMap_bracket?_encodeAt (cell : Nat) (op : Op) :
    (encodeAt cell [op]).filterMap Op.bracket? = [op].filterMap Op.bracket? := by
  rw [encodeAt, List.filterMap_append, List.filterMap_append, List.filterMap_replicate_of_none rfl,
    List.filterMap_replicate_of_none rfl, List.nil_append, List.append_nil]

/-- What an instruction gives to the brackets of its program: one bracket if it is one itself, and
otherwise nothing that is not balanced. -/
def Contributes (instr : Instr Ref) (part : List Op) : Prop :=
  match instr.bracket? with
  | some bracket => (codeText part).toList.filterMap Bracket.ofChar? = [bracket]
  | none => BalancedText (codeText part).toList

theorem contributes_encode {instr : Instr Ref} {part : List Op} (h : encodeRef instr = .ok part) :
    Contributes instr part := by
  obtain rfl := encodeRef_eq h
  rw [Contributes, filterMap_ofChar?_codeText, balancedText_codeText]
  cases hbracket : instr.bracket? with
  | none => exact nested_encode ((instr.map _).piece_of_bracket? (by rw [Instr.bracket?_map, hbracket]))
  | some bracket =>
    cases instr with
    | openLoop | closeLoop =>
      cases hbracket
      rw [Instr.map, encode, filterMap_bracket?_encodeAt]
      rfl
    | _ => cases hbracket

/-! ## Programs -/

/-- The parts of the code of a program. -/
theorem exists_parts {program : Numbered} {code : List Op} (h : encodeAll program = .ok code) :
    ∃ parts, List.Forall₂ (fun instr part => encodeRef instr = .ok part)
      (program.map Prod.snd) parts ∧ code = parts.flatten := by
  induction program generalizing code with
  | nil =>
    cases h
    exact ⟨[], .nil, rfl⟩
  | cons entry rest ih =>
    obtain ⟨line, instr⟩ := entry
    rw [encodeAll] at h
    split at h
    · cases h
    · next part hpart =>
      obtain ⟨more, hmore, h⟩ := bind_eq_ok.1 h
      cases h
      obtain ⟨parts, hparts, rfl⟩ := ih hmore
      exact ⟨part :: parts, .cons hpart hparts, rfl⟩

/-- Expansion keeps the brackets and drops nothing else than definitions. -/
theorem Expansion.closes_iff {definitions : Definitions} {program expanded : Numbered}
    (h : Expansion definitions program expanded) (openings : List Unit) :
    Closes openings (expanded.map fun entry => entry.2.mark) ↔
      Closes openings (program.map fun entry => entry.2.mark) := by
  induction h generalizing openings with
  | done => exact Iff.rfl
  | define _ _ ih => exact ih openings
  | keep _ _ ih =>
    rw [List.map_cons, List.map_cons, Instr.mark_map]
    exact closes_cons_congr ih _ openings

/-- **Loops decide whether brackets match.** There is a jump table for the code of instructions
exactly if their loops are well nested, whatever cells the brackets of a loop name. The code is
that of the expanded instructions one after the other: one bracket for a bracket, and balanced code
for every other instruction. -/
theorem assembleInstrs_brackets {instrs : List (Instr Ref)} {code : List Op}
    (h : assembleInstrs instrs = .ok code) :
    (JumpTable.ofBrackets? ((codeText code).toList.map Bracket.ofChar?) ≠ none ↔
        WellNested (instrs.map Instr.mark)) ∧
      ∃ expanded parts, expandInstrs instrs = .ok expanded ∧
        List.Forall₂ (fun instr part => encodeRef instr = .ok part ∧ Contributes instr part)
          expanded parts ∧ code = parts.flatten := by
  obtain ⟨expanded, hexpand, hencode⟩ := bind_eq_ok.1 h
  constructor
  · have hmarks : (numbered instrs).map (fun entry => entry.2.mark) = instrs.map Instr.mark := by
      rw [← Function.comp_def Instr.mark Prod.snd, ← List.map_map, map_snd_numbered]
    have hresolved : (expanded.map fun entry => entry.2.map Ref.toNat).map Instr.mark =
        expanded.map fun entry => entry.2.mark := by
      rw [List.map_map]
      exact List.map_congr_left fun entry _ => Instr.mark_map _ entry.2
    have hclosed := (expansion_of_expandFrom hexpand).closes_iff []
    rw [← Option.isSome_iff_ne_none, isSome_ofBrackets?, map_ofChar?_codeText,
      ← wellNested_iff_balanced, encodeAll_eq hencode]
    refine (closes_encode_all _ []).trans ?_
    rw [hresolved, hclosed, hmarks, WellNested]
  · obtain ⟨parts, hparts, hcode⟩ := exists_parts hencode
    refine ⟨expanded.map Prod.snd, parts, ?_, hparts.imp fun instr part hpart =>
      ⟨hpart, contributes_encode hpart⟩, hcode⟩
    rw [expandInstrs, hexpand]
    rfl

/-- The brackets of one loop name two cells, and a copy into two cells stands between them. -/
theorem assembleInstrs_brackets_copy :
    assembleInstrs [.define "x" (.number 2), .openLoop (.number 1),
        .copy (.number 0) [.name "x", .number 1], .closeLoop (.name "x")] =
      .ok (readCode ">[<[->>+<<>+<]>>]<<") ∧
    JumpTable.ofBrackets? ((codeText (readCode ">[<[->>+<<>+<]>>]<<")).toList.map Bracket.ofChar?) ≠
      none := by
  have h : assembleInstrs [.define "x" (.number 2), .openLoop (.number 1),
      .copy (.number 0) [.name "x", .number 1], .closeLoop (.name "x")] =
      .ok (readCode ">[<[->>+<<>+<]>>]<<") := rfl
  exact ⟨h, (assembleInstrs_brackets h).1.2 (by decide)⟩

end Asm

end TapeCompiler
