import TapeCompiler.Compile
import TapeCompiler.Proofs.Asm.FaultHints
import TapeCompiler.Proofs.Diagnostic.HintLines
/-!
# Hints for texts of instructions

The hint of a message is found by its wording, and the wording quotes the text. So the hint is the
one that helps with the fault exactly if the words quoted do not mislead
(`hint_of_assembleText`). Words that do are rare, but they exist
(`exists_stray_definitionHint`).
-/
namespace TapeCompiler

open TapeCompiler.Text

/-- **Hints match the fault, unless the quoted words mislead.** When a text of instructions is refused
with a diagnostic, the lines of its message that begin as a hint are its hint. This is the list of
mnemonics for an unknown operation, the advice to define the name for a name without definition, and
none for other faults, exactly if the fault quotes no misleading words. If it does, the hint is the
one that these words call up. -/
theorem hint_of_assembleText {source : String} {failure : Failure} {d : Diagnostic}
    (h : assembleText source = .error failure) (hd : failure.diagnostic? = some d) :
    ∃ (line : Nat) (fault : Asm.Fault), failure = .assemble (some source) ⟨line, fault⟩ ∧
      fault.category? = some d.category ∧
      hintLines d.message = d.hint.toList.map ("Hint: " ++ ·) ∧
      (d.hint = fault.dueHint ↔ ¬fault.Misleading) ∧
      (fault.Misleading → d.hint = some fault.strayHint) := by
  obtain ⟨e, he, rfl⟩ := mapError_eq_error.1 h
  obtain ⟨line, text, hline, ⟨hpos, htext⟩, -⟩ := Asm.concerns_of_assemble he
  have hwords := Asm.ofText_of_assemble he
  obtain ⟨eline, fault⟩ := e
  obtain rfl : eline = line := hline
  obtain ⟨category, hcategory, rfl⟩ := Option.map_eq_some_iff.1 hd
  have hlt := (List.getElem?_eq_some_iff.1 htext).1
  have hle : line ≤ (lines source).length := by omega
  have hshows := shows_inText hpos hle category fault.text none
  have htopic : category.topic = .assemble := by cases fault <;> cases hcategory <;> rfl
  have hhint : (Diagnostic.inText category fault.text (some source) line none).hint =
      hintFor .assemble fault.text := by
    rw [← htopic]
    rfl
  refine ⟨line, fault, rfl, hcategory, ?_, ?_, ?_⟩
  · exact hintLines_message hwords.not_lineFeed_mem hshows.hintLines_eq_nil
  · rw [hhint]
    exact hwords.hinted.hintFor_eq_due_iff
  · rw [hhint]
    exact hwords.hinted.stray

/-- The operands `unknown` and `operation`, neither of which is defined, are taken for the words of a
message on an unknown operation. -/
theorem hint_of_assembleText_neighbours :
    ∃ failure d, assembleText "add unknown operation" = .error failure ∧
      failure.diagnostic? = some d ∧ d.category = .malformedInstruction ∧
      hintLines d.message = ["Hint: " ++ Asm.mnemonicsHint] := by
  have h : assembleText "add unknown operation" = .error (.assemble (some "add unknown operation")
      ⟨1, .unresolvedOperand "unknown" (.add (.name "unknown") (.name "operation"))⟩) := rfl
  obtain ⟨line, fault, hfailure, hcategory, hlines, -, hstray⟩ := hint_of_assembleText h rfl
  cases hfailure
  have hmisleading : (Asm.Fault.unresolvedOperand "unknown"
      (.add (.name "unknown") (.name "operation"))).Misleading :=
    ⟨"unknown", "operation", by decide, by decide, by decide⟩
  rw [hstray hmisleading] at hlines
  exact ⟨_, _, h, rfl, rfl, hlines⟩

/-- An operand that is neither a name nor a number calls up the advice to define a name, which is no
help: the hint of a fault is not always the one that is due. -/
theorem exists_stray_definitionHint : ∃ failure d fault,
    assembleText "write unresolved?" = .error failure ∧ failure.diagnostic? = some d ∧
      failure = .assemble (some "write unresolved?") ⟨1, fault⟩ ∧
      fault = .invalidOperand "unresolved?" ∧ fault.dueHint = none ∧
      d.hint = some Asm.definitionHint := by
  refine ⟨_, _, .invalidOperand "unresolved?", rfl, rfl, rfl, rfl, rfl, ?_⟩
  decide

end TapeCompiler
