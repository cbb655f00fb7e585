import Mathlib.Data.List.Nodup
import TapeCompiler.Lowering.Generate
import TapeCompiler.Proofs.Asm.RowMeaning
import TapeCompiler.Proofs.Loops.OpenLoops
import TapeCompiler.Proofs.Lowering.FlagName
/-!
# Loops on flags

The loops of lowered code are loops on flags, and where one is open there is no second one on the
same flag (`guarded_lowerBlock`): a gate is numbered by its comparison, and what is inside a gate is
numbered by a later comparison or by a greater depth.
-/
namespace TapeCompiler

open TapeCompiler.Asm

/-- A flag as an operand. -/
def Flag.ref (flag : Flag) : Ref := .name flag.name

/-- Behind the code the loops on these flags are open, the innermost first. -/
def Code.Opens (code : Code) (flags : List Flag) : Prop :=
  LeavesOpen [] (code.map Instr.piece) (flags.map Flag.ref)

/-- Brackets match, and at every place the open loops are loops on different flags, all of which are
in `F`. -/
structure Code.Guarded (F : Flag → Prop) (code : Code) : Prop where
  nested : Code.Nested code
  opened : ∀ before after, code = before ++ after → ∃ flags : List Flag,
    Code.Opens before flags ∧ flags.Nodup ∧ ∀ flag ∈ flags, F flag

section

variable {F F' : Flag → Prop} {code first second before next : Code} {flags others : List Flag}

theorem Code.Opens.nil : Code.Opens [] [] := rfl

theorem Code.Opens.append (h : Code.Opens before flags) (hnext : Code.Opens next others) :
    Code.Opens (before ++ next) (others ++ flags) := by
  rw [Code.Opens, List.map_append, List.map_append]
  exact LeavesOpen.append h hnext.frame

theorem Code.Nested.opens (h : Code.Nested code) : Code.Opens code [] :=
  wellNested_iff_leavesOpen.1 h

theorem Code.opens_openLoop (flag : Flag) : Code.Opens [.openLoop flag.ref] [flag] := rfl

namespace Code.Guarded

theorem nil : Guarded F [] where
  nested := rfl
  opened before after heq := by
    obtain ⟨rfl, -⟩ := List.append_eq_nil_iff.1 heq.symm
    exact ⟨[], .nil, List.nodup_nil, by simp⟩

theorem mono (h : Guarded F code) (hF : ∀ flag, F flag → F' flag) : Guarded F' code where
  nested := h.nested
  opened before after heq := by
    obtain ⟨flags, hopens, hnodup, hall⟩ := h.opened before after heq
    exact ⟨flags, hopens, hnodup, fun flag hmem => hF flag (hall flag hmem)⟩

theorem append (hf : Guarded F first) (hs : Guarded F second) : Guarded F (first ++ second) where
  nested := hf.nested.append hs.nested
  opened before after heq := by
    rcases List.append_eq_append_iff.1 heq with ⟨more, rfl, hmore⟩ | ⟨more, hmore, -⟩
    · obtain ⟨flags, hopens, hnodup, hall⟩ := hs.opened more after hmore
      refine ⟨flags, ?_, hnodup, hall⟩
      have happend := hf.nested.opens.append hopens
      rwa [List.append_nil] at happend
    · exact hf.opened before more hmore

theorem act {instr : Instr Ref} (h : instr.piece = .act instr) : Guarded F [instr] where
  nested := .act h .nil
  opened before after heq := by
    refine ⟨[], ?_, List.nodup_nil, by simp⟩
    rcases List.append_eq_singleton_iff.1 heq.symm with ⟨rfl, -⟩ | ⟨rfl, -⟩
    · exact .nil
    · exact (Code.Nested.act h .nil).opens

theorem cons {instr : Instr Ref} (h : instr.piece = .act instr) (hcode : Guarded F code) :
    Guarded F (instr :: code) := (act h).append hcode

-- A place inside is outside of all loops of the code, or in some of them, which are on other flags.
theorem loop {flag : Flag} (h : Guarded F code) (hflag : F' flag) (hnot : ¬F flag)
    (hF : ∀ other, F other → F' other) :
    Guarded F' (.openLoop flag.ref :: code ++ [.closeLoop flag.ref]) where
  nested := h.nested.loop
  opened before after heq := by
    cases before with
    | nil => exact ⟨[], .nil, List.nodup_nil, by simp⟩
    | cons instr before =>
      have hinside : code ++ [.closeLoop flag.ref] = before ++ after := (List.cons.inj heq).2
      obtain rfl : .openLoop flag.ref = instr := (List.cons.inj heq).1
      rcases List.append_eq_append_iff.1 hinside with ⟨more, rfl, hmore⟩ | ⟨more, hmore, -⟩
      · rcases List.append_eq_singleton_iff.1 hmore.symm with ⟨rfl, -⟩ | ⟨rfl, -⟩
        · rw [List.append_nil]
          refine ⟨[flag], ?_, List.nodup_singleton flag, List.forall_mem_singleton.2 hflag⟩
          exact (Code.opens_openLoop flag).append h.nested.opens
        · exact ⟨[], h.nested.loop.opens, List.nodup_nil, by simp⟩
      · obtain ⟨flags, hopens, hnodup, hall⟩ := h.opened before more hmore
        refine ⟨flags ++ [flag], (Code.opens_openLoop flag).append hopens, ?_, ?_⟩
        · rw [List.nodup_append]
          refine ⟨hnodup, List.nodup_singleton flag, ?_⟩
          rintro other hother _ hlast rfl
          rw [List.mem_singleton.1 hlast] at hother
          exact hnot (hall flag hother)
        · exact List.forall_mem_append.2
            ⟨fun other hmem => hF other (hall other hmem), List.forall_mem_singleton.2 hflag⟩

end Code.Guarded

end

/-! ## Gates -/

/-- A flag of a block of this depth or a greater one. -/
def Flag.Deep (depth : Int) (flag : Flag) : Prop := flag.Natural ∧ depth ≤ flag.depth

/-- A flag that tests one of the comparisons from number `term` on, or one that is deeper. -/
def Flag.Tests (depth term : Int) (flag : Flag) : Prop :=
  (∃ later, term ≤ later ∧ flag.Natural ∧
    (flag = .difference depth later ∨ flag = .equality depth later)) ∨ flag.Deep (depth + 1)

section

variable {flag : Flag} {depth term : Int} {inner body otherwise : Code}

theorem Flag.Tests.deep (h : flag.Tests depth term) : flag.Deep depth := by
  rcases h with ⟨later, -, hnatural, rfl | rfl⟩ | ⟨hnatural, hdepth⟩
  · exact ⟨hnatural, Int.le_rfl⟩
  · exact ⟨hnatural, Int.le_rfl⟩
  · exact ⟨hnatural, by omega⟩

theorem Flag.Tests.earlier (h : flag.Tests depth (term + 1)) : flag.Tests depth term := by
  rcases h with ⟨later, hterm, hflag⟩ | hdeep
  · exact .inl ⟨later, by omega, hflag⟩
  · exact .inr hdeep

theorem not_tests_difference : ¬(Flag.difference depth term).Tests depth (term + 1) := by
  rintro (⟨later, hterm, -, heq | heq⟩ | ⟨-, hdepth⟩)
  · cases heq
    omega
  · cases heq
  · simp only [Flag.depth] at hdepth
    omega

theorem not_tests_equality : ¬(Flag.equality depth term).Tests depth (term + 1) := by
  rintro (⟨later, hterm, -, heq | heq⟩ | ⟨-, hdepth⟩)
  · cases heq
  · cases heq
    omega
  · simp only [Flag.depth] at hdepth
    omega

theorem guarded_whenFlag {F F' : Flag → Prop} (h : Code.Guarded F inner) (hflag : F' flag)
    (hnot : ¬F flag) (hF : ∀ other, F other → F' other) :
    Code.Guarded F' (whenFlag flag.name inner) := by
  have hbody := (h.append (.act (rfl : (setCell flag.name 0).piece = _))).loop hflag hnot hF
  rwa [List.cons_append, List.append_assoc] at hbody

theorem guarded_differenceInto {F : Flag → Prop} (flag : String) (c : Comparison) :
    Code.Guarded F (differenceInto flag c) :=
  .cons rfl (.cons rfl (.cons rfl (.act rfl)))

theorem guarded_gate (condition : Condition) (hdepth : 0 ≤ depth) (hterm : 0 ≤ term)
    (h : Code.Guarded (Flag.Deep (depth + 1)) inner) :
    Code.Guarded (Flag.Tests depth term) (gate depth term condition inner) := by
  induction condition generalizing term with
  | nil => exact h.mono fun _ => .inr
  | cons c rest ih =>
    have hinner := ih (Int.le_add_one hterm)
    have hdifference : (Flag.difference depth term).Tests depth term :=
      .inl ⟨term, Int.le_rfl, ⟨hdepth, hterm⟩, .inl rfl⟩
    have hequality : (Flag.equality depth term).Tests depth term :=
      .inl ⟨term, Int.le_rfl, ⟨hdepth, hterm⟩, .inr rfl⟩
    rw [gate]
    unfold gateComparison
    cases c.test with
    | notEqual =>
      exact (guarded_differenceInto _ c).append
        (guarded_whenFlag hinner hdifference not_tests_difference fun _ => Flag.Tests.earlier)
    | equal =>
      have hclear : Code.Guarded (Flag.Tests depth term) (whenFlag (Flag.difference depth term).name
          [setCell (Flag.equality depth term).name 0]) :=
        guarded_whenFlag (F := fun _ => False) (.act rfl) hdifference id fun _ => False.elim
      exact ((Code.Guarded.cons rfl (guarded_differenceInto _ c)).append hclear).append
        (guarded_whenFlag hinner hequality not_tests_equality fun _ => Flag.Tests.earlier)

theorem guarded_branch (condition : Condition) (hdepth : 0 ≤ depth)
    (h : Code.Guarded (Flag.Deep (depth + 1)) body) :
    Code.Guarded (Flag.Deep depth) (gateBranch depth condition body none) :=
  (guarded_gate condition hdepth Int.le_rfl h).mono fun _ => Flag.Tests.deep

theorem guarded_branchElse (condition : Condition) (hdepth : 0 ≤ depth)
    (h : Code.Guarded (Flag.Deep (depth + 1)) body)
    (ho : Code.Guarded (Flag.Deep (depth + 1)) otherwise) :
    Code.Guarded (Flag.Deep depth) (gateBranch depth condition body (some otherwise)) := by
  have hgate := guarded_gate condition hdepth Int.le_rfl
    (h.append (.act (rfl : (setCell (Flag.untaken depth).name 0).piece = _)))
  have huntaken : ¬(Flag.untaken depth).Deep (depth + 1) := by
    rintro ⟨-, hdeep⟩
    simp only [Flag.depth] at hdeep
    omega
  refine (Code.Guarded.cons rfl (hgate.mono fun _ => Flag.Tests.deep)).append
    (guarded_whenFlag ho ⟨hdepth, Int.le_rfl⟩ huntaken ?_)
  exact fun other h => ⟨h.1, by have := h.2; omega⟩

theorem guarded_gateLoop (condition : Condition) (hdepth : 0 ≤ depth)
    (h : Code.Guarded (Flag.Deep (depth + 1)) body) :
    Code.Guarded (Flag.Deep depth) (gateLoop depth condition body) := by
  have hgate := guarded_gate condition hdepth Int.le_rfl
    (h.append (.act (rfl : (setCell (Flag.again depth).name 1).piece = _)))
  have hagain : ¬(Flag.again depth).Tests depth 0 := by
    rintro (⟨later, -, -, heq | heq⟩ | ⟨-, hdeep⟩)
    · cases heq
    · cases heq
    · simp only [Flag.depth] at hdeep
      omega
  have hnatural : (Flag.again depth).Deep depth := ⟨hdepth, Int.le_rfl⟩
  have hround := Code.Guarded.cons (rfl : (setCell (Flag.again depth).name 0).piece = _) hgate
  exact .cons rfl (hround.loop hnatural hagain fun _ => Flag.Tests.deep)

end

/-! ## Statements -/

mutual

theorem guarded_lowerStatement : ∀ (statement : Statement) (depth : Int), 0 ≤ depth →
    Code.Guarded (Flag.Deep depth) (lowerStatement depth statement)
  | .input _, _, _ | .output _, _, _ | .assign _ _, _, _ | .move .right, _, _
  | .move .left, _, _ => .act rfl
  | .loop condition body, depth, hdepth =>
    guarded_gateLoop condition hdepth (guarded_lowerBlock body (depth + 1) (by omega))
  | .branch condition body, depth, hdepth =>
    guarded_branch condition hdepth (guarded_lowerBlock body (depth + 1) (by omega))
  | .branchElse condition body otherwise, depth, hdepth =>
    guarded_branchElse condition hdepth (guarded_lowerBlock body (depth + 1) (by omega))
      (guarded_lowerBlock otherwise (depth + 1) (by omega))

/-- The loops of lowered code are on different flags wherever they are open together. -/
theorem guarded_lowerBlock : ∀ (block : Block) (depth : Int), 0 ≤ depth →
    Code.Guarded (Flag.Deep depth) (lowerBlock depth block)
  | [], _, _ => .nil
  | statement :: rest, depth, hdepth =>
    (guarded_lowerStatement statement depth hdepth).append (guarded_lowerBlock rest depth hdepth)

end

end TapeCompiler
