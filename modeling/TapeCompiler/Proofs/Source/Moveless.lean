import TapeCompiler.Proofs.Source.Meaning
/-!
# Programs without moves

A program without moves stays on the row where it starts (`Block.Moveless.row_of_visits`).
-/
namespace TapeCompiler

mutual

def Statement.Moveless : Statement → Prop
  | .input _ | .output _ | .assign _ _ => True
  | .move _ => False
  | .loop _ body | .branch _ body => Block.Moveless body
  | .branchElse _ body otherwise => Block.Moveless body ∧ Block.Moveless otherwise

/-- No statement of the block moves, however deep it is. -/
def Block.Moveless : Block → Prop
  | [] => True
  | statement :: rest => statement.Moveless ∧ Block.Moveless rest

end

mutual

theorem Statement.Moveless.row_of_runs : ∀ {statement : Statement} {w v : World},
    statement.Moveless → statement.Runs w v → v.row = w.row
  | .input _, _, _, _, h | .output _, _, _, _, h | .assign _ _, _, _, _, h => h ▸ rfl
  | .loop _ _, _, _, hm, h => by
    induction h with
    | done => rfl
    | again _ first _ ih => exact ih.trans (Block.Moveless.row_of_runs hm first)
  | .branch _ _, _, _, hm, h => by
    rcases h with ⟨-, h⟩ | ⟨-, rfl⟩
    · exact Block.Moveless.row_of_runs hm h
    · rfl
  | .branchElse _ _ _, _, _, hm, h => by
    rcases h with ⟨-, h⟩ | ⟨-, h⟩
    · exact Block.Moveless.row_of_runs hm.1 h
    · exact Block.Moveless.row_of_runs hm.2 h

theorem Block.Moveless.row_of_runs : ∀ {block : Block} {w v : World},
    Block.Moveless block → Block.Runs block w v → v.row = w.row
  | [], _, _, _, h => h ▸ rfl
  | _ :: _, _, _, hm, ⟨_, hfirst, hrest⟩ =>
    (Block.Moveless.row_of_runs hm.2 hrest).trans (Statement.Moveless.row_of_runs hm.1 hfirst)

end

mutual

theorem Statement.Moveless.row_of_visits : ∀ {statement : Statement} {w : World} {r : Int},
    statement.Moveless → statement.Visits w r → r = w.row
  | .input _, _, _, _, h | .output _, _, _, _, h | .assign _ _, _, _, _, h => h
  | .loop _ body, w, r, hm, ⟨m, hrounds, h⟩ => by
    have hrow : m.row = w.row := by
      clear h
      induction hrounds with
      | none => rfl
      | more _ first _ ih => exact ih.trans (Block.Moveless.row_of_runs hm first)
    rcases h with rfl | ⟨-, h⟩
    · exact hrow
    · exact (Block.Moveless.row_of_visits hm h).trans hrow
  | .branch _ _, _, _, hm, h => by
    rcases h with rfl | ⟨-, h⟩
    · rfl
    · exact Block.Moveless.row_of_visits hm h
  | .branchElse _ _ _, _, _, hm, h => by
    rcases h with ⟨-, h⟩ | ⟨-, h⟩
    · exact Block.Moveless.row_of_visits hm.1 h
    · exact Block.Moveless.row_of_visits hm.2 h

/-- A block without moves comes on no other row. -/
theorem Block.Moveless.row_of_visits : ∀ {block : Block} {w : World} {r : Int},
    Block.Moveless block → Block.Visits block w r → r = w.row
  | [], _, _, _, h => h
  | _ :: _, _, _, hm, h => by
    rcases h with h | ⟨m, hfirst, hrest⟩
    · exact Statement.Moveless.row_of_visits hm.1 h
    · exact (Block.Moveless.row_of_visits hm.2 hrest).trans
        (Statement.Moveless.row_of_runs hm.1 hfirst)

end

end TapeCompiler
