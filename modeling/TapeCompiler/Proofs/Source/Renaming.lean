import TapeCompiler.Proofs.Source.WellFormed
/-!
# Renaming variables

A program with other names for its variables. What a program does not mention is renamed in vain
(`Block.rename_congr`), and names that variables may have leave it well-formed
(`Block.WellFormed.rename`).
-/
namespace TapeCompiler

def Comparison.rename (ρ : String → String) (c : Comparison) : Comparison :=
  { c with name := ρ c.name }

def Condition.rename (ρ : String → String) (condition : Condition) : Condition :=
  condition.map (Comparison.rename ρ)

mutual

def Statement.rename (ρ : String → String) : Statement → Statement
  | .input name => .input (ρ name)
  | .output name => .output (ρ name)
  | .assign name value => .assign (ρ name) value
  | .move direction => .move direction
  | .loop condition body => .loop (condition.rename ρ) (Block.rename ρ body)
  | .branch condition body => .branch (condition.rename ρ) (Block.rename ρ body)
  | .branchElse condition body otherwise =>
    .branchElse (condition.rename ρ) (Block.rename ρ body) (Block.rename ρ otherwise)

/-- A block with every variable renamed. -/
def Block.rename (ρ : String → String) : Block → Block
  | [] => []
  | statement :: rest => statement.rename ρ :: Block.rename ρ rest

end

variable {ρ σ : String → String}

/-! ## Names -/

theorem Condition.names_rename (ρ : String → String) (condition : Condition) :
    (condition.rename ρ).names = condition.names.map ρ := by
  simp [rename, names, Comparison.rename, Function.comp_def]

mutual

theorem Statement.names_rename (ρ : String → String) :
    ∀ statement : Statement, (statement.rename ρ).names = statement.names.map ρ
  | .input _ | .output _ | .assign _ _ | .move _ => rfl
  | .loop condition body | .branch condition body => by
    simp only [Statement.rename, Statement.names, condition.names_rename, namesOf_rename ρ body,
      List.map_append]
  | .branchElse condition body otherwise => by
    simp only [Statement.rename, Statement.names, condition.names_rename, namesOf_rename ρ body,
      namesOf_rename ρ otherwise, List.map_append]

theorem namesOf_rename (ρ : String → String) :
    ∀ block : Block, namesOf (Block.rename ρ block) = (namesOf block).map ρ
  | [] => rfl
  | statement :: rest => by
    simp only [Block.rename, namesOf, statement.names_rename, namesOf_rename ρ rest,
      List.map_append]

end

/-! ## Renamings that agree -/

theorem Condition.rename_congr {condition : Condition} (h : ∀ x ∈ condition.names, ρ x = σ x) :
    condition.rename ρ = condition.rename σ := by
  refine List.map_congr_left fun c hc => ?_
  rw [Comparison.rename, Comparison.rename, h c.name (List.mem_map_of_mem hc)]

mutual

theorem Statement.rename_congr :
    ∀ {statement : Statement}, (∀ x ∈ statement.names, ρ x = σ x) →
      statement.rename ρ = statement.rename σ
  | .input name, h | .output name, h | .assign name _, h => by
    simp only [Statement.rename, h name List.mem_cons_self]
  | .move _, _ => rfl
  | .loop condition body, h | .branch condition body, h => by
    simp only [Statement.names, List.forall_mem_append] at h
    simp only [Statement.rename, Condition.rename_congr h.1, Block.rename_congr h.2]
  | .branchElse condition body otherwise, h => by
    simp only [Statement.names, List.forall_mem_append] at h
    simp only [Statement.rename, Condition.rename_congr h.1.1, Block.rename_congr h.1.2,
      Block.rename_congr h.2]

/-- Only the names of a block count. -/
theorem Block.rename_congr :
    ∀ {block : Block}, (∀ x ∈ namesOf block, ρ x = σ x) → Block.rename ρ block = Block.rename σ block
  | [], _ => rfl
  | statement :: rest, h => by
    simp only [namesOf, List.forall_mem_append] at h
    simp only [Block.rename, Statement.rename_congr h.1, Block.rename_congr h.2]

end

/-! ## Well-formedness -/

theorem Condition.WellFormed.rename {condition : Condition} (h : condition.WellFormed)
    (hρ : ∀ x ∈ condition.names, IsVariable (ρ x)) : (condition.rename ρ).WellFormed := by
  refine ⟨by simp [Condition.rename, h.1], ?_⟩
  rw [Condition.rename, List.forall_mem_map]
  intro c hc
  exact ⟨hρ c.name (List.mem_map_of_mem hc), (h.2 c hc).2⟩

mutual

theorem Statement.WellFormed.rename :
    ∀ {statement : Statement}, statement.WellFormed → (∀ x ∈ statement.names, IsVariable (ρ x)) →
      (statement.rename ρ).WellFormed
  | .input name, _, hρ | .output name, _, hρ => hρ name List.mem_cons_self
  | .assign name _, h, hρ => ⟨hρ name List.mem_cons_self, h.2⟩
  | .move _, _, _ => trivial
  | .loop condition body, h, hρ | .branch condition body, h, hρ => by
    simp only [Statement.names, List.forall_mem_append] at hρ
    exact ⟨h.1.rename hρ.1, Block.WellFormed.rename h.2 hρ.2⟩
  | .branchElse condition body otherwise, h, hρ => by
    simp only [Statement.names, List.forall_mem_append] at hρ
    exact ⟨h.1.rename hρ.1.1, Block.WellFormed.rename h.2.1 hρ.1.2,
      Block.WellFormed.rename h.2.2 hρ.2⟩

theorem Block.WellFormed.rename :
    ∀ {block : Block}, Block.WellFormed block → (∀ x ∈ namesOf block, IsVariable (ρ x)) →
      Block.WellFormed (Block.rename ρ block)
  | [], _, _ => trivial
  | statement :: rest, h, hρ => by
    simp only [namesOf, List.forall_mem_append] at hρ
    exact ⟨Statement.WellFormed.rename h.1 hρ.1, Block.WellFormed.rename h.2 hρ.2⟩

end

end TapeCompiler
