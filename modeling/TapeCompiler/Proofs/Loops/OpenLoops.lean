import TapeCompiler.Proofs.Loops.WellNested
/-!
# Open loops

While a written sequence is read, the loops that have been opened and not yet closed are a stack.
Reading goes on with the same stack below it (`LeavesOpen.frame`), and a sequence is well nested when
it leaves nothing open (`wellNested_iff_leavesOpen`).
-/
namespace TapeCompiler

variable {ι κ : Type}

/-- Where the loops `opened` are open before a sequence, the loops `left` are open behind it, the
innermost first. Each bracket that closes a loop has the label of the innermost one. -/
def LeavesOpen : List κ → List (Piece ι κ) → List κ → Prop
  | opened, [], left => opened = left
  | opened, .act _ :: rest, left => LeavesOpen opened rest left
  | opened, .opening label :: rest, left => LeavesOpen (label :: opened) rest left
  | [], .closing _ :: _, _ => False
  | innermost :: opened, .closing label :: rest, left =>
    innermost = label ∧ LeavesOpen opened rest left

variable {opened left outer : List κ} {ps qs : List (Piece ι κ)}

theorem closes_iff_leavesOpen : Closes opened ps ↔ LeavesOpen opened ps [] := by
  induction ps generalizing opened with
  | nil => rfl
  | cons piece rest ih =>
    cases piece with
    | act | opening => exact ih
    | closing label =>
      cases opened with
      | nil => rfl
      | cons innermost opened => exact and_congr_right fun _ => ih

theorem wellNested_iff_leavesOpen : WellNested ps ↔ LeavesOpen [] ps [] := closes_iff_leavesOpen

theorem leavesOpen_append : LeavesOpen opened (ps ++ qs) left ↔
    ∃ between, LeavesOpen opened ps between ∧ LeavesOpen between qs left := by
  induction ps generalizing opened with
  | nil => exact ⟨fun h => ⟨opened, rfl, h⟩, fun ⟨_, rfl, h⟩ => h⟩
  | cons piece rest ih =>
    cases piece with
    | act | opening => exact ih
    | closing label =>
      cases opened with
      | nil => exact ⟨False.elim, fun ⟨_, h, _⟩ => h⟩
      | cons innermost opened =>
        constructor
        · rintro ⟨hlabel, h⟩
          obtain ⟨between, hrest, hqs⟩ := ih.1 h
          exact ⟨between, ⟨hlabel, hrest⟩, hqs⟩
        · rintro ⟨between, ⟨hlabel, hrest⟩, hqs⟩
          exact ⟨hlabel, ih.2 ⟨between, hrest, hqs⟩⟩

theorem LeavesOpen.append {between : List κ} (h : LeavesOpen opened ps between)
    (hqs : LeavesOpen between qs left) : LeavesOpen opened (ps ++ qs) left :=
  leavesOpen_append.2 ⟨between, h, hqs⟩

/-- Loops further out stay as they are. -/
theorem LeavesOpen.frame (h : LeavesOpen opened ps left) :
    LeavesOpen (opened ++ outer) ps (left ++ outer) := by
  induction ps generalizing opened with
  | nil => exact congrArg (· ++ outer) h
  | cons piece rest ih =>
    cases piece with
    | act | opening => exact ih h
    | closing label =>
      cases opened with
      | nil => exact absurd h id
      | cons innermost opened => exact ⟨h.1, ih h.2⟩

end TapeCompiler
