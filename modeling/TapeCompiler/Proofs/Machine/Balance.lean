import TapeCompiler.Proofs.Machine.Structured
/-!
# Balanced brackets

Brackets balance when no prefix closes more loops than it opens and the whole closes as many as it
opens. For machine code, whose brackets carry no labels, this is all that being well nested asks
for (`wellNested_iff_balanced`).
-/
namespace TapeCompiler

/-- Whether a prefix-wise count of brackets comes out even, with `depth` loops open before. -/
def BalancedFrom (depth : Nat) (brackets : List (Option Bracket)) : Prop :=
  (∀ n ≤ brackets.length, (brackets.take n).count (some .closing) ≤
      depth + (brackets.take n).count (some .opening)) ∧
    brackets.count (some .closing) = depth + brackets.count (some .opening)

/-- No prefix closes more than it opens, and the whole closes as much as it opens. -/
def Balanced (brackets : List (Option Bracket)) : Prop := BalancedFrom 0 brackets

instance (brackets : List (Option Bracket)) : Decidable (Balanced brackets) :=
  inferInstanceAs (Decidable (_ ∧ _))

theorem balancedFrom_nil (depth : Nat) : BalancedFrom depth [] ↔ depth = 0 := by
  simp [BalancedFrom, eq_comm]

/-- A prefix of a sequence is empty, or it is the first member and a prefix of the rest. -/
theorem forall_take_cons {α : Type} {P : List α → Prop} (a : α) (as : List α) (h : P []) :
    (∀ n ≤ (a :: as).length, P ((a :: as).take n)) ↔ ∀ n ≤ as.length, P (a :: as.take n) := by
  constructor
  · intro h n hn
    exact h (n + 1) (by simp only [List.length_cons]; omega)
  · intro hr n hn
    cases n with
    | zero => exact h
    | succ n => exact hr n (by simp only [List.length_cons] at hn; omega)

theorem balancedFrom_none (depth : Nat) (rest : List (Option Bracket)) :
    BalancedFrom depth (none :: rest) ↔ BalancedFrom depth rest := by
  rw [BalancedFrom, forall_take_cons (P := fun ps => ps.count (some Bracket.closing) ≤
    depth + ps.count (some Bracket.opening)) _ _ (by simp)]
  simp [BalancedFrom]

theorem balancedFrom_opening (depth : Nat) (rest : List (Option Bracket)) :
    BalancedFrom depth (some .opening :: rest) ↔ BalancedFrom (depth + 1) rest := by
  rw [BalancedFrom, forall_take_cons (P := fun ps => ps.count (some Bracket.closing) ≤
    depth + ps.count (some Bracket.opening)) _ _ (by simp)]
  simp [BalancedFrom, Nat.add_assoc, Nat.add_comm 1]

theorem balancedFrom_closing (depth : Nat) (rest : List (Option Bracket)) :
    BalancedFrom depth (some .closing :: rest) ↔
      0 < depth ∧ BalancedFrom (depth - 1) rest := by
  rw [BalancedFrom, forall_take_cons (P := fun ps => ps.count (some Bracket.closing) ≤
    depth + ps.count (some Bracket.opening)) _ _ (by simp)]
  simp only [BalancedFrom, List.count_cons_self, Option.some.injEq, reduceCtorEq,
    not_false_eq_true, List.count_cons_of_ne, ne_eq]
  constructor
  · rintro ⟨hpre, htotal⟩
    have h0 := hpre 0 (Nat.zero_le _)
    simp only [List.take_zero, List.count_nil] at h0
    refine ⟨by omega, fun n hn => ?_, by omega⟩
    have := hpre n hn
    omega
  · rintro ⟨hpos, hpre, htotal⟩
    constructor
    · intro n hn
      have := hpre n hn
      omega
    · omega

theorem closes_iff_balancedFrom (openings : List Unit) (ops : List Op) :
    Closes openings (ops.map Op.piece) ↔
      BalancedFrom openings.length (ops.map Op.bracket?) := by
  induction ops generalizing openings with
  | nil =>
    rw [List.map_nil, List.map_nil, balancedFrom_nil, List.length_eq_zero_iff]
    exact Iff.rfl
  | cons op rest ih =>
    rw [List.map_cons, List.map_cons]
    cases op with
    | openLoop =>
      rw [Op.piece, Op.bracket?, balancedFrom_opening]
      exact ih (() :: openings)
    | closeLoop =>
      rw [Op.piece, Op.bracket?, balancedFrom_closing]
      cases openings with
      | nil => simp [Closes]
      | cons _ openings => simpa [Closes] using ih openings
    | increment | decrement | right | left | read | write =>
      rw [Op.piece, Op.bracket?, balancedFrom_none]
      · exact ih openings
      all_goals simp

/-- Machine code is well nested when its brackets balance. -/
theorem wellNested_iff_balanced (ops : List Op) :
    WellNested (ops.map Op.piece) ↔ Balanced (ops.map Op.bracket?) :=
  closes_iff_balancedFrom [] ops

end TapeCompiler
