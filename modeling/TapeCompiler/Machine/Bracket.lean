import TapeCompiler.Machine.Op
/-!
# Brackets

A jump table gives every bracket of a sequence the position of its partner. It is built in one pass
with the positions of the brackets that are still open; there is none when a bracket has no
partner.
-/
namespace TapeCompiler

inductive Bracket where
  | opening
  | closing
  deriving DecidableEq, Repr

def Bracket.ofChar? : Char → Option Bracket
  | '[' => some opening
  | ']' => some closing
  | _ => none

def Op.bracket? : Op → Option Bracket
  | openLoop => some .opening
  | closeLoop => some .closing
  | _ => none

/-- Pairs the brackets of a sequence whose first member stands at `position`. `openings` are the
positions of the brackets still open, the innermost first; `pairs` are the pairs already closed, the
latest first, each with its opening position first. -/
def bracketPairsFrom (position : Nat) (openings : List Nat) (pairs : List (Nat × Nat)) :
    List (Option Bracket) → Option (List (Nat × Nat))
  | [] => if openings.isEmpty then some pairs else none
  | none :: rest => bracketPairsFrom (position + 1) openings pairs rest
  | some .opening :: rest => bracketPairsFrom (position + 1) (position :: openings) pairs rest
  | some .closing :: rest =>
    match openings with
    | [] => none
    | opening :: others =>
      bracketPairsFrom (position + 1) others ((opening, position) :: pairs) rest

/-- The pairs of brackets in a sequence, none when it is not balanced. -/
def bracketPairs (brackets : List (Option Bracket)) : Option (List (Nat × Nat)) :=
  bracketPairsFrom 0 [] [] brackets

/-- The partner of each position that holds a bracket. -/
structure JumpTable where
  partners : Array (Option Nat)
  deriving DecidableEq, Repr

namespace JumpTable

/-- The table of the given length in which the two positions of each pair point at each other. -/
def ofPairs (length : Nat) (pairs : List (Nat × Nat)) : JumpTable :=
  ⟨pairs.foldl (fun partners pair =>
      (partners.setIfInBounds pair.1 (some pair.2)).setIfInBounds pair.2 (some pair.1))
    (Array.replicate length none)⟩

/-- The table of a sequence, none when it is not balanced (`build_jump_table`). -/
def ofBrackets? (brackets : List (Option Bracket)) : Option JumpTable :=
  (bracketPairs brackets).map (ofPairs brackets.length)

def partner? (table : JumpTable) (position : Nat) : Option Nat :=
  (table.partners[position]?).join

/-- All brackets with their partners, by position. -/
def entries (table : JumpTable) : List (Nat × Nat) :=
  table.partners.toList.zipIdx.filterMap fun (partner, position) =>
    partner.map fun partner => (position, partner)

end JumpTable

end TapeCompiler
