import TapeCompiler.Machine.Bracket
import TapeCompiler.Proofs.Loops.WellNested
/-!
# Labels of brackets

Whether a sequence is well nested depends on the labels of its brackets, and the pass that pairs
brackets does not look at them. The pairs it finds in a well nested sequence have equal labels all
the same (`sameLabel_of_bracketPairs`).
-/
namespace TapeCompiler

variable {ι κ : Type}

def Piece.bracket? : Piece ι κ → Option Bracket
  | act _ => none
  | opening _ => some .opening
  | closing _ => some .closing

def Piece.label? : Piece ι κ → Option κ
  | act _ => none
  | opening label | closing label => some label

/-- The label of the bracket at a position, if there is a bracket. -/
def labelAt (ps : List (Piece ι κ)) (position : Nat) : Option κ := ps[position]?.bind Piece.label?

/-- Two positions hold brackets with one label. -/
def SameLabel (ps : List (Piece ι κ)) (pair : Nat × Nat) : Prop :=
  ∃ label, labelAt ps pair.1 = some label ∧ labelAt ps pair.2 = some label

-- The labels of the loops that are open are those at the positions the pass has kept for them.
theorem sameLabel_of_bracketPairsFrom {whole ps : List (Piece ι κ)} {position : Nat}
    {openings : List Nat} {labels : List κ} {pairs result : List (Nat × Nat)}
    (hps : ∀ i, whole[position + i]? = ps[i]?) (hclosed : Closes labels ps)
    (hopenings : openings.map (labelAt whole) = labels.map some)
    (hpairs : ∀ pair ∈ pairs, SameLabel whole pair)
    (h : bracketPairsFrom position openings pairs (ps.map Piece.bracket?) = some result) :
    ∀ pair ∈ result, SameLabel whole pair := by
  induction ps generalizing position openings labels pairs with
  | nil =>
    rw [List.map_nil, bracketPairsFrom] at h
    split at h
    · rwa [← Option.some.inj h]
    · cases h
  | cons piece rest ih =>
    have hrest : ∀ i, whole[position + 1 + i]? = rest[i]? := by
      intro i
      rw [Nat.add_assoc, Nat.add_comm 1 i]
      exact hps (i + 1)
    have hlabel : labelAt whole position = piece.label? := by
      have hpiece : whole[position]? = some piece := hps 0
      rw [labelAt, hpiece, Option.bind_some]
    cases piece with
    | act instr => exact ih hrest hclosed hopenings hpairs h
    | opening label =>
      have hall : (position :: openings).map (labelAt whole) = (label :: labels).map some := by
        rw [List.map_cons, hlabel, hopenings, List.map_cons, Piece.label?]
      exact ih hrest hclosed hall hpairs h
    | closing label =>
      cases labels with
      | nil => exact absurd hclosed id
      | cons innermost labels =>
        obtain ⟨rfl, hclosed⟩ := hclosed
        obtain ⟨opening, others, rfl, hopening, hothers⟩ := List.map_eq_cons_iff.1 hopenings
        have hpair : SameLabel whole (opening, position) := ⟨innermost, hopening, hlabel⟩
        exact ih hrest hclosed hothers (List.forall_mem_cons.2 ⟨hpair, hpairs⟩) h

/-- Paired brackets of a well nested sequence have one label. -/
theorem sameLabel_of_bracketPairs {ps : List (Piece ι κ)} {pairs : List (Nat × Nat)}
    (hnested : WellNested ps) (h : bracketPairs (ps.map Piece.bracket?) = some pairs) :
    ∀ pair ∈ pairs, SameLabel ps pair :=
  sameLabel_of_bracketPairsFrom (fun i => by rw [Nat.zero_add]) hnested rfl
    (fun _ hmem => absurd hmem List.not_mem_nil) h

end TapeCompiler
