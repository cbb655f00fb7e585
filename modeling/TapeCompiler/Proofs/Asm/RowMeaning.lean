import TapeCompiler.Lowering.Gate
import TapeCompiler.Proofs.Asm.TapeMeaning
import TapeCompiler.Proofs.Loops.Confined
import TapeCompiler.Proofs.Source.World
/-!
# Instructions on rows of named cells

As they are generated, instructions name their cells, and they move by the width of a row. So they
mean changes of a world in which every row has a cell for every name. Instructions of other forms,
such as a move by a number of cells, mean nothing here.
-/
namespace TapeCompiler

/-- Adds the byte of a name to other names and clears it. -/
def World.copy (x : String) (targets : List String) (w : World) : World :=
  (targets.foldl (fun v y => v.put y (v.get y + w.get x)) w).put x 0

namespace Asm

/-- What an instruction other than a bracket does to a world. -/
def Instr.ActsOnRow : Instr Ref → World → World → Prop
  | .define _ _, w, v | .comment _, w, v => v = w
  | .add (.name x) (.number n), w, v => v = w.put x (w.get x + .ofInt n)
  | .sub (.name x) (.number n), w, v => v = w.put x (w.get x - .ofInt n)
  | .set (.name x) (.number n), w, v => v = w.put x (.ofInt n)
  | .right (.name x), w, v => x = rowWidthName ∧ v = w.move .right
  | .left (.name x), w, v => x = rowWidthName ∧ v = w.move .left
  | .copy (.name x) targets, w, v => ∃ names, targets = names.map .name ∧ v = w.copy x names
  | .read (.name x), w, v => v = w.read x
  | .write (.name x), w, v => v = w.write x
  | _, _, _ => False

/-- The meaning of instructions over names: a loop goes on while its cell is not zero, on the row
where the program is then. -/
def rowMeaning : Meaning (Instr Ref) Ref World where
  act := Instr.ActsOnRow
  test
    | .name x, w => w.get x ≠ 0
    | .number _, _ => False

end Asm

/-! ## Code that keeps to some rows -/

open Asm

/-- Code whose brackets match. -/
def Code.Nested (code : Code) : Prop := WellNested (code.map Instr.piece)

/-- The runs of code on the rows in `inside`; a world on another row is lost. -/
def CodeOn (inside : Int → Prop) (code : Code) : Option World → Option World → Prop :=
  Executes (rowMeaning.confined fun w => inside w.row) (code.map Instr.piece)

variable {inside : Int → Prop} {code first second body rest : Code} {w v : World}
  {s t : Option World} {x : String}

theorem Code.Nested.nil : Code.Nested [] := rfl

theorem Code.Nested.append (hf : Code.Nested first) (hs : Code.Nested second) :
    Code.Nested (first ++ second) := by
  rw [Code.Nested, List.map_append]
  exact WellNested.append hf hs

theorem Code.Nested.act {instr : Instr Ref} (hact : instr.piece = .act instr)
    (h : Code.Nested rest) : Code.Nested (instr :: rest) := by
  rw [Code.Nested, List.map_cons, hact]
  exact h

theorem Code.Nested.loop (h : Code.Nested body) :
    Code.Nested (.openLoop (.name x) :: body ++ [.closeLoop (.name x)]) := by
  rw [Code.Nested, List.cons_append, List.map_cons, List.map_append]
  exact WellNested.loop (.name x) h .nil

theorem codeOn_nil : CodeOn inside [] s t ↔ t = s := executes_nil

theorem codeOn_none (h : Code.Nested code) : CodeOn inside code none t ↔ t = none :=
  executes_none h

theorem inside_of_codeOn (hw : inside w.row) (h : CodeOn inside code (some w) (some v)) :
    inside v.row := inside_of_executes (fun w : World => inside w.row) hw h

theorem codeOn_append (hf : Code.Nested first) (hs : Code.Nested second) :
    CodeOn inside (first ++ second) s t ↔
      ∃ m, CodeOn inside first s m ∧ CodeOn inside second m t := by
  rw [CodeOn, List.map_append]
  exact executes_append hf hs

/-- An instruction that keeps to the rows and ends in one world only. -/
theorem codeOn_act {instr : Instr Ref} (hact : instr.piece = .act instr)
    (hinstr : ∀ m, instr.ActsOnRow w m ↔ m = v) (hv : inside v.row) :
    CodeOn inside (instr :: rest) (some w) t ↔ CodeOn inside rest (some v) t := by
  rw [CodeOn, List.map_cons, hact, executes_act]
  constructor
  · rintro ⟨_, ⟨m, hm, hin⟩, hr⟩
    obtain rfl := (hinstr m).1 hm
    obtain ⟨-, rfl⟩ | ⟨hout, -⟩ := hin
    · exact hr
    · exact absurd hv hout
  · intro hr
    exact ⟨some v, ⟨v, (hinstr v).2 rfl, .inl ⟨hv, rfl⟩⟩, hr⟩

theorem codeOn_loop (h : Code.Nested body) :
    CodeOn inside (.openLoop (.name x) :: body ++ [.closeLoop (.name x)]) s t ↔
      Repeat (fun s => ∃ w, s = some w ∧ w.get x ≠ 0) (CodeOn inside body) s t := by
  have htest : (rowMeaning.confined fun w : World => inside w.row).test (.name x) =
      fun s => ∃ w, s = some w ∧ w.get x ≠ 0 := by
    funext s
    cases s <;> simp [Meaning.confined, rowMeaning]
  rw [CodeOn, List.cons_append, List.map_cons, List.map_append]
  refine (executes_loop h .nil).trans ?_
  simp only [executes_nil, exists_eq_right', htest]
  exact Iff.rfl

/-- A loop is left with its cell empty. -/
theorem get_of_codeOn_loop (h : Code.Nested body)
    (hrun : CodeOn inside (.openLoop (.name x) :: body ++ [.closeLoop (.name x)]) s (some w)) :
    w.get x = 0 := by
  have hstop := ((codeOn_loop h).1 hrun).not_test
  exact Decidable.not_not.1 fun hx => hstop ⟨w, rfl, hx⟩

/-- A run of two pieces of code that is not lost is not lost between them. -/
theorem exists_of_codeOn_append (hf : Code.Nested first) (hs : Code.Nested second)
    (h : CodeOn inside (first ++ second) (some w) (some v)) :
    ∃ m, CodeOn inside first (some w) (some m) ∧ CodeOn inside second (some m) (some v) := by
  obtain ⟨m, hfirst, hsecond⟩ := (codeOn_append hf hs).1 h
  cases m with
  | none => cases (codeOn_none hs).1 hsecond
  | some m => exact ⟨m, hfirst, hsecond⟩

/-! ## Instructions that gates are made of -/

theorem nested_setCell (x : String) (n : Int) : Code.Nested [setCell x n] := rfl

theorem codeOn_setCell {n : Int} (hw : inside w.row) :
    CodeOn inside (setCell x n :: rest) (some w) t ↔
      CodeOn inside rest (some (w.put x (.ofInt n))) t :=
  codeOn_act rfl (fun _ => Iff.rfl) hw

theorem actsOnRow_copy {targets : List String} :
    (Instr.copy (.name x) (targets.map Ref.name)).ActsOnRow w v ↔ v = w.copy x targets := by
  constructor
  · rintro ⟨names, hnames, rfl⟩
    rw [(List.map_inj_right fun _ _ => Ref.name.inj).1 hnames]
  · intro h
    exact ⟨targets, rfl, h⟩

theorem row_copy (x : String) (targets : List String) (w : World) :
    (w.copy x targets).row = w.row := by
  suffices h : ∀ v : World,
      (targets.foldl (fun v y => v.put y (v.get y + w.get x)) v).row = v.row from h w
  induction targets with
  | nil =>
    intro v
    rfl
  | cons y rest ih =>
    intro v
    exact ih (v.put y (v.get y + w.get x))

theorem codeOn_copy (targets : List String) (hw : inside w.row) :
    CodeOn inside (.copy (.name x) (targets.map Ref.name) :: rest) (some w) t ↔
      CodeOn inside rest (some (w.copy x targets)) t :=
  codeOn_act rfl (fun _ => actsOnRow_copy) ((row_copy x targets w).symm ▸ hw)

/-- Code followed by the setting of a cell. -/
theorem codeOn_append_setCell {n : Int} (h : Code.Nested code) (hw : inside w.row) :
    CodeOn inside (code ++ [setCell x n]) (some w) t ↔
      ∃ m, CodeOn inside code (some w) m ∧ t = m.map (World.put x (.ofInt n)) := by
  rw [codeOn_append h (nested_setCell x n)]
  refine exists_congr fun m => and_congr_right fun hm => ?_
  cases m with
  | none => exact codeOn_none (nested_setCell x n)
  | some v =>
    rw [codeOn_setCell (inside_of_codeOn hw hm), codeOn_nil]
    exact Iff.rfl

end TapeCompiler
