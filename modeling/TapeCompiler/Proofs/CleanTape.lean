import TapeCompiler.Proofs.Correctness
import TapeCompiler.Proofs.Lowering.Cleared
/-!
# Clean tapes

A program without moves has one row, at the start of the tape. When its code halts, the cells of its
variables are the only ones that may hold something: the internal cells of the row are cleared, and
the cells behind the row are as they were (`zeroOff_of_moveless`).
-/
namespace TapeCompiler

/-- No cell holds anything but the cells that the layout gives the names on the row where programs
start. -/
def Layout.ZeroOff (layout : Layout) (names : List String) (memory : Array UInt8) : Prop :=
  ∀ i < memory.size, (∀ x ∈ names, layout.offset? x ≠ some i) → memory[i]? = some 0

/-- A tape that carries one row holds nothing off the names that the world has filled. -/
theorem Layout.Carries.zeroOff {layout : Layout} {visited : Int → Prop} {size : Nat} {w : World}
    {s : Snapshot} {names : List String} (h : layout.Carries visited size w s)
    (hvisited : ∀ r, visited r ↔ r = 0) (hroom : layout.width ≤ size)
    (hzero : ∀ x ∈ layout.names, x ∉ names → w.cells 0 x = 0) :
    layout.ZeroOff names s.tape.cells := by
  intro i hi hoff
  replace hi : i < size := h.size_eq ▸ hi
  by_cases hrow : i < layout.width
  · obtain ⟨x, hx, hxi⟩ := exists_name hrow
    have hcell := h.cells 0 ((hvisited 0).2 rfl) x i hxi
    rwa [cellAt_zero hi, hzero x hx fun hmem => hoff x hmem hxi] at hcell
  · refine h.rest i hi fun r hr off hlt heq => hrow ?_
    rw [(hvisited r).1 hr, cellAt_zero (Nat.lt_of_lt_of_le hlt hroom)] at heq
    exact heq ▸ hlt

theorem Block.Moveless.visits_iff {program : Block} (h : Block.Moveless program)
    {input : List UInt8} {r : Int} : Block.Visits program (.initial input) r ↔ r = 0 :=
  ⟨Block.Moveless.row_of_visits h, fun hr => hr ▸ Block.visits_row program (.initial input)⟩

theorem Block.Moveless.visits_bounds {program : Block} (h : Block.Moveless program)
    {input : List UInt8} (r : Int) (hr : Block.Visits program (.initial input) r) :
    0 ≤ r ∧ r ≤ 0 := by
  simp [h.visits_iff.1 hr]

section

variable {program : Block} {size : Nat} {input : List UInt8}

theorem zeroOff_codeOf_of_pos (hwf : Block.WellFormed program)
    (hnames : ∀ x ∈ namesOf program, isReserved x = false) (hmoveless : Block.Moveless program)
    (hsize : 0 < size) (hroom : (layoutOf program).width ≤ size) {steps : Nat}
    {outcome : Machine.Outcome}
    (hrun : Machine.run steps (codeOf program) input size = some (.ok outcome)) :
    outcome.memory.size = size ∧ (layoutOf program).ZeroOff (namesOf program) outcome.memory := by
  have hvisits : ∀ r, Block.Visits program (.initial input) r ↔ r = 0 := fun _ => hmoveless.visits_iff
  have hfits : (layoutOf program).Fits (Block.Visits program (.initial input)) size :=
    Layout.fits_of_interval hmoveless.visits_bounds (by omega)
  obtain ⟨-, v, t, -, -, hcode, hcarries, rfl⟩ := exists_carried hwf hnames hsize hfits hrun
  have hsettles := tidy_block program 0 Int.le_rfl hnames hmoveless (.initial input) v
    ((hvisits 0).2 rfl) rfl hcode
  refine ⟨hcarries.size_eq, hcarries.zeroOff hvisits hroom fun x hx hvariable => ?_⟩
  have hinternal := (mem_layoutOf hx).resolve_left hvariable
  have hget := hsettles.empty x hinternal id rfl
  rwa [World.get, hsettles.row] at hget

end

/-- **No flag leaks.** When the code of a program without moves halts on a tape that has room for
its row, every cell is zero but the cells of the variables of the program. -/
theorem zeroOff_of_moveless {source : String} {program : Block} {annotate : Bool}
    {compiled : Compiled} (hparse : parse source = .ok program)
    (hmoveless : Block.Moveless program)
    (hcompiled : compile ⟨annotate, false⟩ source = .ok compiled) {input : List UInt8}
    {tapeSize : Int} (hroom : compiled.layout.width ≤ tapeSize) {steps : Nat}
    {outcome : Machine.Outcome}
    (hrun : Machine.run steps compiled.code input tapeSize = some (.ok outcome)) :
    (outcome.memory.size : Int) = tapeSize ∧
      compiled.layout.ZeroOff (namesOf program) outcome.memory := by
  have hreserved := reservedName?_of_compile hparse hcompiled
  obtain ⟨hlayout, hcode⟩ := code_of_compile hparse hreserved hcompiled
  rw [hlayout] at hroom ⊢
  rw [hcode] at hrun
  obtain ⟨size, rfl⟩ := Int.eq_ofNat_of_zero_le (Int.le_trans (Int.natCast_nonneg _) hroom)
  have hwf := wellFormed_of_parse hparse
  have hnames := reservedName?_eq_none.1 hreserved
  rcases Nat.eq_zero_or_pos size with rfl | hsize
  · rw [codeOf_eq_nil hwf hnames (by omega)] at hrun
    obtain ⟨-, rfl⟩ := Machine.run_nil.1 hrun
    simp [Layout.ZeroOff]
  · have hclean := zeroOff_codeOf_of_pos hwf hnames hmoveless hsize (by omega) hrun
    exact ⟨congrArg _ hclean.1, hclean.2⟩

/-- The part of the branch that is not taken has a flag of its own. -/
theorem zeroOff_of_moveless_else :
    parse "x = 1 if x == 1\x7bx = 3\x7delse\x7b\x7d" =
      .ok [.assign "x" 1, .branchElse [⟨"x", .equal, 1⟩] [.assign "x" 3] []] ∧
    Block.Moveless [.assign "x" 1, .branchElse [⟨"x", .equal, 1⟩] [.assign "x" 3] []] ∧
    ∃ compiled, compile ⟨false, false⟩ "x = 1 if x == 1\x7bx = 3\x7delse\x7b\x7d" = .ok compiled ∧
      compiled.layout.width ≤ (7 : Int) ∧
      ∃ steps outcome, Machine.run steps compiled.code [] 7 = some (.ok outcome) ∧
        (outcome.memory.size : Int) = 7 ∧ compiled.layout.ZeroOff ["x", "x", "x"] outcome.memory := by
  have htokens : Scan.tokens "x = 1 if x == 1\x7bx = 3\x7delse\x7b\x7d" = .ok
      [⟨.name, "x", ⟨1, 1⟩⟩, ⟨.assign, "=", ⟨1, 3⟩⟩, ⟨.number, "1", ⟨1, 5⟩⟩,
        ⟨.name, "if", ⟨1, 7⟩⟩, ⟨.name, "x", ⟨1, 10⟩⟩, ⟨.equal, "==", ⟨1, 12⟩⟩,
        ⟨.number, "1", ⟨1, 15⟩⟩, ⟨.openBrace, "\x7b", ⟨1, 16⟩⟩, ⟨.name, "x", ⟨1, 17⟩⟩,
        ⟨.assign, "=", ⟨1, 19⟩⟩, ⟨.number, "3", ⟨1, 21⟩⟩, ⟨.closeBrace, "\x7d", ⟨1, 22⟩⟩,
        ⟨.name, "else", ⟨1, 23⟩⟩, ⟨.openBrace, "\x7b", ⟨1, 27⟩⟩, ⟨.closeBrace, "\x7d", ⟨1, 28⟩⟩,
        ⟨.endOfInput, "", ⟨1, 29⟩⟩] := by
    rfl
  have hparse : parse "x = 1 if x == 1\x7bx = 3\x7delse\x7b\x7d" =
      .ok [.assign "x" 1, .branchElse [⟨"x", .equal, 1⟩] [.assign "x" 3] []] := by
    rw [parse, tokenize, htokens]
    rfl
  have hmoveless : Block.Moveless
      [.assign "x" 1, .branchElse [⟨"x", .equal, 1⟩] [.assign "x" 3] []] := by
    simp [Block.Moveless, Statement.Moveless]
  have hnames : reservedName? [.assign "x" 1, .branchElse [⟨"x", .equal, 1⟩] [.assign "x" 3] []] =
      none := by
    decide
  obtain ⟨compiled, hcompiled⟩ :
      ∃ compiled, compile ⟨false, false⟩ "x = 1 if x == 1\x7bx = 3\x7delse\x7b\x7d" = .ok compiled :=
    exists_compiled hparse hnames (by decide)
  obtain ⟨hlayout, hcode⟩ := code_of_compile hparse hnames hcompiled
  have hwidth : compiled.layout.width ≤ 7 := by
    rw [hlayout]
    decide
  have hroom : compiled.layout.width ≤ (7 : Int) := by omega
  obtain ⟨steps, outcome, hrun⟩ : ∃ steps outcome,
      Machine.run steps compiled.code [] 7 = some (.ok outcome) := by
    have hholds : Condition.Holds [⟨"x", .equal, 1⟩] ((World.initial []).put "x" 1) :=
      List.forall_mem_singleton.2 World.get_put_self
    have hruns := @run_codeOf _ 7 [] 0 0 (wellFormed_of_parse hparse)
      (reservedName?_eq_none.1 hnames) hmoveless.visits_bounds (by rw [← hlayout]; omega)
    rw [hcode]
    exact hruns.2 _ ⟨_, rfl, _, .inl ⟨hholds, _, rfl, rfl⟩, rfl⟩
  exact ⟨hparse, hmoveless, compiled, hcompiled, hroom, steps, outcome, hrun,
    zeroOff_of_moveless hparse hmoveless hcompiled hroom hrun⟩

end TapeCompiler
