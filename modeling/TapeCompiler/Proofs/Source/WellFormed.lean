import TapeCompiler.Lowering.Variables
import TapeCompiler.Source.Grammar
/-!
# Well-formed programs

The programs that a source text can stand for: their variables are names that are no reserved words,
their numbers fit into a byte, and none of their conditions is empty.
-/
namespace TapeCompiler

/-- A name that a variable may have. -/
def IsVariable (name : String) : Prop :=
  Text.isName name.toList = true ∧ name ∉ Grammar.reservedWords

def Comparison.WellFormed (c : Comparison) : Prop :=
  IsVariable c.name ∧ 0 ≤ c.value ∧ c.value ≤ 255

def Condition.WellFormed (condition : Condition) : Prop :=
  condition ≠ [] ∧ ∀ c ∈ condition, c.WellFormed

mutual

def Statement.WellFormed : Statement → Prop
  | .input name | .output name => IsVariable name
  | .assign name value => IsVariable name ∧ 0 ≤ value ∧ value ≤ 255
  | .move _ => True
  | .loop condition body | .branch condition body =>
    Condition.WellFormed condition ∧ Block.WellFormed body
  | .branchElse condition body otherwise =>
    Condition.WellFormed condition ∧ Block.WellFormed body ∧ Block.WellFormed otherwise

def Block.WellFormed : Block → Prop
  | [] => True
  | statement :: rest => statement.WellFormed ∧ Block.WellFormed rest

end

theorem Block.WellFormed.of_mem {block : Block} (h : Block.WellFormed block) :
    ∀ statement ∈ block, statement.WellFormed := by
  induction block with
  | nil => simp
  | cons first rest ih => exact List.forall_mem_cons.2 ⟨h.1, ih h.2⟩

theorem Condition.WellFormed.isVariable {condition : Condition} (h : condition.WellFormed)
    {x : String} (hx : x ∈ condition.names) : IsVariable x := by
  obtain ⟨c, hc, rfl⟩ := List.mem_map.1 hx
  exact (h.2 c hc).1

mutual

theorem Statement.WellFormed.isVariable : ∀ {statement : Statement}, statement.WellFormed →
    ∀ x ∈ statement.names, IsVariable x
  | .input _, h, x, hx | .output _, h, x, hx => List.mem_singleton.1 hx ▸ h
  | .assign _ _, h, x, hx => List.mem_singleton.1 hx ▸ h.1
  | .loop _ _, h, x, hx | .branch _ _, h, x, hx =>
    (List.mem_append.1 hx).elim h.1.isVariable (Block.WellFormed.isVariable h.2 x)
  | .branchElse _ _ _, h, x, hx => by
    rcases List.mem_append.1 hx with hx | hx
    · exact (List.mem_append.1 hx).elim h.1.isVariable (Block.WellFormed.isVariable h.2.1 x)
    · exact Block.WellFormed.isVariable h.2.2 x hx

/-- Every name in a well-formed program is one that a variable may have. -/
theorem Block.WellFormed.isVariable : ∀ {block : Block}, Block.WellFormed block →
    ∀ x ∈ namesOf block, IsVariable x
  | _ :: _, h, x, hx =>
    (List.mem_append.1 hx).elim (Statement.WellFormed.isVariable h.1 x)
      (Block.WellFormed.isVariable h.2 x)

end

end TapeCompiler
