import TapeCompiler.Lowering.Variables
import TapeCompiler.Proofs.Loops.Nest
import TapeCompiler.Proofs.Source.World
/-!
# What programs mean

A program changes a world statement by statement. Numbers count modulo 256, in assignments as in
comparisons, and variables are those of the row where the program is. `Runs` relates the worlds
before and after a run that ends; `Visits` says on which rows a run comes, whether it ends or not.
-/
namespace TapeCompiler

/-- Whether a comparison holds on the row where the program is. -/
def Comparison.Holds (c : Comparison) (w : World) : Prop :=
  match c.test with
  | .equal => w.get c.name = .ofInt c.value
  | .notEqual => w.get c.name ≠ .ofInt c.value

/-- All comparisons must hold, so the empty condition does. -/
def Condition.Holds (condition : Condition) (w : World) : Prop := ∀ c ∈ condition, c.Holds w

theorem Condition.holds_cons {c : Comparison} {rest : Condition} {w : World} :
    Condition.Holds (c :: rest) w ↔ c.Holds w ∧ rest.Holds w := List.forall_mem_cons

theorem Comparison.holds_congr {c : Comparison} {hidden : String → Prop} {w v : World}
    (h : World.SameOff hidden w v) (hname : ¬hidden c.name) : c.Holds v ↔ c.Holds w := by
  unfold Comparison.Holds
  rw [h.get hname]

theorem Condition.holds_congr {condition : Condition} {hidden : String → Prop} {w v : World}
    (h : World.SameOff hidden w v) (hnames : ∀ c ∈ condition, ¬hidden c.name) :
    condition.Holds v ↔ condition.Holds w :=
  forall₂_congr fun c hc => Comparison.holds_congr h (hnames c hc)

mutual

/-- The worlds before and after a statement. -/
def Statement.Runs : Statement → World → World → Prop
  | .input name, w, v => v = w.read name
  | .output name, w, v => v = w.write name
  | .assign name value, w, v => v = w.put name (.ofInt value)
  | .move direction, w, v => v = w.move direction
  | .loop condition body, w, v => Repeat condition.Holds (Block.Runs body) w v
  | .branch condition body, w, v =>
    condition.Holds w ∧ Block.Runs body w v ∨ ¬condition.Holds w ∧ v = w
  | .branchElse condition body otherwise, w, v =>
    condition.Holds w ∧ Block.Runs body w v ∨ ¬condition.Holds w ∧ Block.Runs otherwise w v

/-- The worlds before and after a block. -/
def Block.Runs : Block → World → World → Prop
  | [], w, v => v = w
  | statement :: rest, w, v => ∃ m, statement.Runs w m ∧ Block.Runs rest m v

end

/-! ## Rows -/

mutual

/-- The rows on which a statement comes. -/
def Statement.Visits : Statement → World → Int → Prop
  | .input _, w, r | .output _, w, r | .assign _ _, w, r => r = w.row
  | .move direction, w, r => r = w.row ∨ r = (w.move direction).row
  | .loop condition body, w, r =>
    ∃ m, Rounds condition.Holds (Block.Runs body) w m ∧
      (r = m.row ∨ condition.Holds m ∧ Block.Visits body m r)
  | .branch condition body, w, r => r = w.row ∨ condition.Holds w ∧ Block.Visits body w r
  | .branchElse condition body otherwise, w, r =>
    condition.Holds w ∧ Block.Visits body w r ∨ ¬condition.Holds w ∧ Block.Visits otherwise w r

/-- The rows on which a block comes. -/
def Block.Visits : Block → World → Int → Prop
  | [], w, r => r = w.row
  | statement :: rest, w, r =>
    statement.Visits w r ∨ ∃ m, statement.Runs w m ∧ Block.Visits rest m r

end

mutual

theorem Statement.visits_row :
    ∀ (statement : Statement) (w : World), statement.Visits w w.row
  | .input _, _ | .output _, _ | .assign _ _, _ => rfl
  | .move _, _ | .branch _ _, _ => .inl rfl
  | .loop _ _, w => ⟨w, .none, .inl rfl⟩
  | .branchElse condition body otherwise, w => by
    by_cases h : condition.Holds w
    · exact .inl ⟨h, Block.visits_row body w⟩
    · exact .inr ⟨h, Block.visits_row otherwise w⟩

/-- A block comes on the row where it starts. -/
theorem Block.visits_row : ∀ (block : Block) (w : World), Block.Visits block w w.row
  | [], _ => rfl
  | statement :: _, w => .inl (statement.visits_row w)

end

end TapeCompiler
