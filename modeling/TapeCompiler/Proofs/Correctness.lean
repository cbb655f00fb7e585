import TapeCompiler.Compile
import TapeCompiler.Machine.Run
import TapeCompiler.Proofs.Lowering.Listing
import TapeCompiler.Proofs.Lowering.Preserves
import TapeCompiler.Proofs.Source.Parsing
import TapeCompiler.Proofs.Source.Scanning
/-!
# The compiler is correct

The code of a program, run on a tape that has room for the rows on which the program comes, halts
exactly when the program ends, and leaves behind what the program leaves behind
(`compile_correct`).
-/
namespace TapeCompiler

open TapeCompiler.Asm

/-! ## From the text to the program -/

theorem exists_spelling_of_parse {source : String} {program : Block}
    (h : parse source = .ok program) :
    ∃ ts ∈ Block.spellings program, (∀ t ∈ ts, t.FitsKind) ∧ ts.length ≤ source.length := by
  obtain ⟨tokens, htokens, h⟩ := bind_eq_ok.1 h
  obtain ⟨hfits, hlength⟩ := Scan.tokens_fit (mapError_eq_ok.1 htokens)
  obtain ⟨_, ⟨ts, hts, _, ⟨t, rfl, -⟩, rfl⟩, rest, rfl⟩ :=
    Grammar.spelled_of_parseTokens (mapError_eq_ok.1 h)
  refine ⟨ts, hts, fun u hu => hfits u (by simp [hu]), ?_⟩
  simp only [List.length_append, List.length_cons, List.length_nil] at hlength
  omega

theorem wellFormed_of_parse {source : String} {program : Block} (h : parse source = .ok program) :
    Block.WellFormed program := by
  obtain ⟨ts, hts, hfits, -⟩ := exists_spelling_of_parse h
  exact Block.yields_wellFormed program ts hts hfits

/-- A program has at most as many cells as its text has characters. -/
theorem cells_length_le {source : String} {program : Block} (h : parse source = .ok program) :
    (Block.cells 0 program).length ≤ source.length := by
  obtain ⟨ts, hts, -, hlength⟩ := exists_spelling_of_parse h
  exact Nat.le_trans (Block.atLeast_spellings program 0 ts hts) hlength

/-! ## From the program to the code -/

section

variable {source : String} {program : Block} {annotate : Bool}

/-- The code of a program, its rows laid out one behind the other. -/
def codeOf (program : Block) : List Op :=
  ((lowerBlock 0 program).map (Instr.map (layoutOf program).operand)).flatMap encode

theorem compile_eq (hparse : parse source = .ok program) (hnames : reservedName? program = none) :
    compile ⟨annotate, false⟩ source = (assembleText
      (render ((layoutOf program).header ++ lowerProgram annotate program))).map fun code =>
        ⟨code, render ((layoutOf program).header ++ lowerProgram annotate program),
          layoutOf program⟩ := by
  have hgenerate : generateCode annotate program =
      .ok ⟨layoutOf program, (layoutOf program).header ++ lowerProgram annotate program⟩ := by
    rw [generateCode, generate_eq hnames]
    rfl
  simp only [compile, Bool.false_eq_true, if_false, hparse, bind, Except.bind, hgenerate,
    Listing.text]
  cases assembleText (render ((layoutOf program).header ++ lowerProgram annotate program)) <;> rfl

theorem compile_of_reserved {name : String} (hparse : parse source = .ok program)
    (hnames : reservedName? program = some name) :
    compile ⟨annotate, false⟩ source = .error (.reservedName name) := by
  have hgenerate : generateCode annotate program = .error (.reservedName name) := by
    rw [generateCode, generate, variablesOf, hnames]
    rfl
  simp only [compile, Bool.false_eq_true, if_false, hparse, bind, Except.bind, hgenerate]

theorem reservedName?_of_compile {compiled : Compiled} (hparse : parse source = .ok program)
    (h : compile ⟨annotate, false⟩ source = .ok compiled) : reservedName? program = none := by
  cases hnames : reservedName? program with
  | none => rfl
  | some name => cases (compile_of_reserved hparse hnames).symm.trans h

theorem code_of_compile {compiled : Compiled} (hparse : parse source = .ok program)
    (hnames : reservedName? program = none)
    (h : compile ⟨annotate, false⟩ source = .ok compiled) :
    compiled.layout = layoutOf program ∧ compiled.code = codeOf program := by
  rw [compile_eq hparse hnames] at h
  obtain ⟨code, hcode, rfl⟩ := map_eq_ok.1 h
  exact ⟨rfl, assemble_text_eq (wellFormed_of_parse hparse) (reservedName?_eq_none.1 hnames)
    (mapError_eq_ok.1 hcode)⟩

/-- Programs without reserved names are compiled, as long as their texts are of a length that a
count may have. -/
theorem exists_compiled (hparse : parse source = .ok program)
    (hnames : reservedName? program = none) (hlength : source.length < countLimit) :
    ∃ compiled, compile ⟨annotate, false⟩ source = .ok compiled := by
  have hwf := wellFormed_of_parse hparse
  have hwidth := width_layoutOf_le program
  have hcells := cells_length_le hparse
  obtain ⟨code, hcode⟩ := assemble_text_ok hwf (reservedName?_eq_none.1 hnames)
    (Nat.lt_of_le_of_lt (Nat.le_trans hwidth hcells) hlength) annotate
  exact ⟨_, (compile_eq hparse hnames).trans (map_eq_ok.2 ⟨code, mapError_eq_ok.2 hcode, rfl⟩)⟩

end

/-! ## From the code to the tape -/

namespace Machine

theorem run_eq_ok {code : List Op} {mcode : Program} (h : Program.ofCode? code = some mcode)
    {input : List UInt8} {size steps : Nat} {outcome : Outcome} :
    run steps code input size = some (.ok outcome) ↔
      ∃ final, advance mcode steps (.initial (.blank size) input) = .halted final ∧
        outcome = ⟨final.output, final.tape.cells⟩ := by
  rw [run, load_eq_ok h]
  simp only
  cases advance mcode steps (.initial (.blank size) input) with
  | running state => simp [Progress.answer?]
  | halted state => simp [Progress.answer?, eq_comm]
  | failed fault state => simp [Progress.answer?]

end Machine

section

variable {program : Block} {visited : Int → Prop} {size : Nat} {input : List UInt8}

/-- The tape at the start of a run. -/
def blankSnapshot (hsize : 0 < size) (input : List UInt8) : Snapshot :=
  .start (Array.replicate size 0) (by simpa using hsize) input

theorem Layout.Carries.initial {layout : Layout} (hsize : 0 < size) :
    layout.Carries visited size (.initial input) (blankSnapshot hsize input) := by
  have hzero : ∀ i < size, (Array.replicate size (0 : UInt8))[i]? = some 0 := by
    intro i hi
    simp [hi]
  have hcell : ∀ r off, layout.cellAt size r off < size := by
    intro r off
    have := Int.emod_lt_of_pos (r * layout.width + off) (Int.natCast_pos.2 hsize)
    have := Int.emod_nonneg (r * layout.width + off) (Int.natCast_pos.2 hsize).ne'
    rw [cellAt]
    omega
  refine ⟨by simp [blankSnapshot, Snapshot.start, Tape.size], ?_, rfl, rfl, ?_, ?_⟩
  · simp [blankSnapshot, Snapshot.start, World.initial, cellAt]
  · intro r _ x off _
    exact hzero _ (hcell r off)
  · intro i hi _
    exact hzero i hi

/-- What a halted machine leaves of the world in which a program ends: the output, the variables on
the rows where the program has been, and nothing else. -/
structure Layout.Leaves (layout : Layout) (names : List String) (visited : Int → Prop) (size : Nat)
    (final : World) (outcome : Machine.Outcome) : Prop where
  output : outcome.output = final.output
  cells : ∀ r, visited r → ∀ x ∈ names, ∃ off, layout.offset? x = some off ∧
    outcome.memory[layout.cellAt size r off]? = some (final.cells r x)
  rest : ∀ i < size, (∀ r, visited r → ∀ off < layout.width, layout.cellAt size r off ≠ i) →
    outcome.memory[i]? = some 0

theorem Layout.Carries.leaves {layout : Layout} {names : List String} {u w : World} {t : Snapshot}
    (h : layout.Carries visited size w t) (hshows : w.Shows u)
    (hnames : ∀ x ∈ names, isReserved x = false ∧ x ∈ layout.names) :
    layout.Leaves names visited size u ⟨t.output, t.tape.cells⟩ where
  output := h.output.trans hshows.same.output
  cells r hr x hx := by
    obtain ⟨off, hoff⟩ := exists_offset? (hnames x hx).2
    refine ⟨off, hoff, ?_⟩
    rw [← hshows.same.cells r x (by simp [(hnames x hx).1])]
    exact h.cells r hr x off hoff
  rest := h.rest

theorem nested_codeOf (program : Block) :
    WellNested (((lowerBlock 0 program).map (Instr.map (layoutOf program).operand)).map
      Instr.piece) := by
  have h := WellNested.map (Instr.map (layoutOf program).operand) (layoutOf program).operand
    (nested_lowerBlock 0 program)
  rw [List.map_map] at h ⊢
  exact (List.map_congr_left fun instr _ => (piece_map (layoutOf program).operand instr).symm) ▸ h

/-- A run of the code of a program that halts has followed the program to its end, and the tape
carries what the code has made of the world. -/
theorem exists_carried (hwf : Block.WellFormed program)
    (hnames : ∀ x ∈ namesOf program, isReserved x = false) (hsize : 0 < size)
    (hfits : (layoutOf program).Fits (Block.Visits program (.initial input)) size) {steps : Nat}
    {outcome : Machine.Outcome}
    (hrun : Machine.run steps (codeOf program) input size = some (.ok outcome)) :
    ∃ u v t, Block.Runs program (.initial input) u ∧ v.Shows u ∧
      CodeOn (Block.Visits program (.initial input)) (lowerBlock 0 program) (some (.initial input))
        (some v) ∧
      (layoutOf program).Carries (Block.Visits program (.initial input)) size v t ∧
      outcome = ⟨t.output, t.tape.cells⟩ := by
  obtain ⟨mcode, hmcode, hmachine⟩ :=
    Machine.halted_iff_of_wellNested (nested_encode_all (nested_codeOf program))
  obtain ⟨final, hfinal, rfl⟩ := (Machine.run_eq_ok hmcode).1 hrun
  obtain ⟨t, rfl, ht⟩ := ((hmachine (blankSnapshot hsize input)).2 final).1 ⟨steps, hfinal⟩
  obtain ⟨m, hm, hcarries⟩ := (Layout.executes_resolved hfits (nested_lowerBlock 0 program)
    (generated_layoutOf hwf hnames) (.initial hsize) (Block.visits_row program (.initial input))).1
    t ((codeRuns_encode_all (nested_codeOf program)).1 ht)
  obtain ⟨u, v, rfl, hu, hshows, -⟩ := (lowers_block program 0 Int.le_rfl hnames
    (.initial input) (.initial input) ⟨.refl, fun _ => rfl⟩ fun r hr => hr).sound m hm
  exact ⟨u, v, t, hu, hshows, hm, hcarries v rfl, rfl⟩

/-- On a tape with cells, the code of a program ends as the program does. -/
theorem run_codeOf_of_pos (hwf : Block.WellFormed program)
    (hnames : ∀ x ∈ namesOf program, isReserved x = false) (hsize : 0 < size)
    (hfits : (layoutOf program).Fits (Block.Visits program (.initial input)) size) :
    (∀ steps outcome, Machine.run steps (codeOf program) input size = some (.ok outcome) →
      ∃ final, Block.Runs program (.initial input) final ∧ (layoutOf program).Leaves
        (namesOf program) (Block.Visits program (.initial input)) size final outcome) ∧
    ∀ final, Block.Runs program (.initial input) final →
      ∃ steps outcome, Machine.run steps (codeOf program) input size = some (.ok outcome) := by
  constructor
  · intro steps outcome hrun
    obtain ⟨u, v, t, hu, hshows, -, hcarries, rfl⟩ := exists_carried hwf hnames hsize hfits hrun
    exact ⟨u, hu, hcarries.leaves hshows fun x hx =>
      ⟨hnames x hx, mem_names_layoutOf.2 (.inl hx)⟩⟩
  · intro u hu
    obtain ⟨mcode, hmcode, hmachine⟩ :=
      Machine.halted_iff_of_wellNested (nested_encode_all (nested_codeOf program))
    obtain ⟨v, hv, -⟩ := (lowers_block program 0 Int.le_rfl hnames (.initial input)
      (.initial input) ⟨.refl, fun _ => rfl⟩ fun r hr => hr).complete u hu
    obtain ⟨t, ht, -⟩ := (Layout.executes_resolved hfits (nested_lowerBlock 0 program)
      (generated_layoutOf hwf hnames) (.initial hsize)
      (Block.visits_row program (.initial input))).2 v hv
    obtain ⟨steps, hsteps⟩ := ((hmachine (blankSnapshot hsize input)).2 _).2
      ⟨t, rfl, (codeRuns_encode_all (nested_codeOf program)).2 ht⟩
    exact ⟨steps, _, (Machine.run_eq_ok hmcode).2 ⟨_, hsteps, rfl⟩⟩

/-! ## Rows without cells -/

theorem encode_eq_nil {layout : Layout} {instr : Instr Ref} (h : instr.Generated layout.Cell)
    (hwidth : layout.width = 0) : encode (instr.map layout.operand) = [] := by
  have hcell : ∀ x, ¬layout.Cell x := by
    intro x hx
    have hmem := hx.1
    rw [List.length_eq_zero_iff.1 hwidth] at hmem
    exact absurd hmem List.not_mem_nil
  unfold Instr.Generated at h
  split at h
  · exact absurd h.1 (hcell _)
  · exact absurd h.1 (hcell _)
  · subst h
    simp [Instr.map, Layout.operand, encode, hwidth]
  · subst h
    simp [Instr.map, Layout.operand, encode, hwidth]
  · exact absurd h (hcell _)
  · exact absurd h (hcell _)
  · exact absurd h (hcell _)
  · exact absurd h (hcell _)
  · exact absurd h.1 (hcell _)
  · exact absurd h id

/-- A program without variables has no code. -/
theorem codeOf_eq_nil (hwf : Block.WellFormed program)
    (hnames : ∀ x ∈ namesOf program, isReserved x = false)
    (hwidth : (layoutOf program).width = 0) : codeOf program = [] := by
  rw [codeOf, List.flatMap_eq_nil_iff, List.forall_mem_map]
  intro instr hmem
  exact encode_eq_nil (generated_layoutOf hwf hnames instr hmem) hwidth

theorem Machine.run_nil {steps size : Nat} {outcome : Outcome} :
    run steps [] input size = some (.ok outcome) ↔
      0 < steps ∧ outcome = ⟨#[], Array.replicate size 0⟩ := by
  rw [run_eq_ok (rfl : Program.ofCode? [] = some _)]
  cases steps with
  | zero => simp [advance]
  | succ n => simp [advance, step, State.initial, Tape.blank]

/-! ## Whole programs -/

theorem run_codeOf {lo hi : Int} (hwf : Block.WellFormed program)
    (hnames : ∀ x ∈ namesOf program, isReserved x = false)
    (hrows : ∀ r, Block.Visits program (.initial input) r → lo ≤ r ∧ r ≤ hi)
    (hroom : (hi - lo + 1) * (layoutOf program).width ≤ size) :
    (∀ steps outcome, Machine.run steps (codeOf program) input size = some (.ok outcome) →
      ∃ final, Block.Runs program (.initial input) final ∧ (layoutOf program).Leaves
        (namesOf program) (Block.Visits program (.initial input)) size final outcome) ∧
    ∀ final, Block.Runs program (.initial input) final →
      ∃ steps outcome, Machine.run steps (codeOf program) input size = some (.ok outcome) := by
  rcases Nat.eq_zero_or_pos size with rfl | hsize
  · -- A tape without cells has room for rows without cells only. Their code is empty, and it runs
    -- on a tape with one cell as it runs here.
    have hstart := hrows _ (Block.visits_row program (.initial input))
    have hwidth : (layoutOf program).width = 0 := by
      have hle : 1 * ((layoutOf program).width : Int) ≤ (hi - lo + 1) * (layoutOf program).width :=
        Int.mul_le_mul_of_nonneg_right (by omega) (Int.natCast_nonneg _)
      omega
    have hnil := codeOf_eq_nil hwf hnames hwidth
    have hone := @run_codeOf_of_pos program 1 input hwf hnames Nat.one_pos
      (Layout.fits_of_interval hrows (by simp [hwidth]))
    rw [hnil] at hone ⊢
    constructor
    · intro steps outcome hrun
      obtain ⟨hsteps, rfl⟩ := Machine.run_nil.1 hrun
      obtain ⟨final, hfinal, hleaves⟩ := hone.1 steps _ (Machine.run_nil.2 ⟨hsteps, rfl⟩)
      refine ⟨final, hfinal, hleaves.output, fun r hr x hx => ?_, by simp⟩
      obtain ⟨off, hoff, -⟩ := hleaves.cells r hr x hx
      have := Layout.offset?_lt_width hoff
      omega
    · intro final _
      exact ⟨1, _, Machine.run_nil.2 ⟨Nat.one_pos, rfl⟩⟩
  · exact run_codeOf_of_pos hwf hnames hsize (Layout.fits_of_interval hrows hroom)

end

/-- **The compiler is correct.** A program without reserved names is compiled, its text being of a
length that a count may have. On a tape with room for the rows on which the program comes, its code
halts exactly when the program ends, with the same output, with the variables of those rows in the
cells that the layout gives them, and with zeros outside those rows. -/
theorem compile_correct {source : String} {program : Block} (hparse : parse source = .ok program)
    (hnames : reservedName? program = none) (annotate : Bool) :
    (source.length < countLimit → ∃ compiled, compile ⟨annotate, false⟩ source = .ok compiled) ∧
    ∀ compiled, compile ⟨annotate, false⟩ source = .ok compiled →
      ∀ (input : List UInt8) (tapeSize lo hi : Int),
        (∀ r, Block.Visits program (.initial input) r → lo ≤ r ∧ r ≤ hi) →
        (hi - lo + 1) * compiled.layout.width ≤ tapeSize →
        ((∃ steps outcome, Machine.run steps compiled.code input tapeSize = some (.ok outcome)) ↔
          ∃ final, Block.Runs program (.initial input) final) ∧
        ∀ steps outcome, Machine.run steps compiled.code input tapeSize = some (.ok outcome) →
          ∃ final, Block.Runs program (.initial input) final ∧
            compiled.layout.Leaves (namesOf program) (Block.Visits program (.initial input))
              tapeSize.toNat final outcome := by
  refine ⟨exists_compiled hparse hnames, fun compiled hcompiled input tapeSize lo hi hrows hroom => ?_⟩
  obtain ⟨hlayout, hcode⟩ := code_of_compile hparse hnames hcompiled
  rw [hlayout] at hroom ⊢
  rw [hcode]
  have hstart := hrows _ (Block.visits_row program (.initial input))
  have hpos : 0 ≤ tapeSize := by
    have : 0 ≤ (hi - lo + 1) * (layoutOf program).width :=
      Int.mul_nonneg (by omega) (Int.natCast_nonneg _)
    omega
  obtain ⟨size, rfl⟩ := Int.eq_ofNat_of_zero_le hpos
  have hruns := run_codeOf (wellFormed_of_parse hparse) (reservedName?_eq_none.1 hnames) hrows hroom
  refine ⟨⟨?_, ?_⟩, hruns.1⟩
  · rintro ⟨steps, outcome, hrun⟩
    obtain ⟨final, hfinal, -⟩ := hruns.1 steps outcome hrun
    exact ⟨final, hfinal⟩
  · rintro ⟨final, hfinal⟩
    exact hruns.2 final hfinal

/-- Two rows of one cell each on a tape of two cells. -/
theorem compile_correct_move :
    parse "x = 7 move_right output(x)" = .ok [.assign "x" 7, .move .right, .output "x"] ∧
    reservedName? [.assign "x" 7, .move .right, .output "x"] = none ∧
    ∃ compiled, compile ⟨false, false⟩ "x = 7 move_right output(x)" = .ok compiled ∧
      ∃ steps outcome, Machine.run steps compiled.code [] 2 = some (.ok outcome) ∧
        outcome.output = #[0] := by
  have htokens : Scan.tokens "x = 7 move_right output(x)" = .ok
      [⟨.name, "x", ⟨1, 1⟩⟩, ⟨.assign, "=", ⟨1, 3⟩⟩, ⟨.number, "7", ⟨1, 5⟩⟩,
        ⟨.name, "move_right", ⟨1, 7⟩⟩, ⟨.name, "output", ⟨1, 18⟩⟩, ⟨.openParen, "(", ⟨1, 24⟩⟩,
        ⟨.name, "x", ⟨1, 25⟩⟩, ⟨.closeParen, ")", ⟨1, 26⟩⟩, ⟨.endOfInput, "", ⟨1, 27⟩⟩] := by
    rfl
  have hparse : parse "x = 7 move_right output(x)" =
      .ok [.assign "x" 7, .move .right, .output "x"] := by
    rw [parse, tokenize, htokens]
    rfl
  have hnames : reservedName? [.assign "x" 7, .move .right, .output "x"] = none := by decide
  obtain ⟨hexists, hcorrect⟩ := compile_correct hparse hnames false
  obtain ⟨compiled, hcompiled⟩ := hexists (by decide)
  refine ⟨hparse, hnames, compiled, hcompiled, ?_⟩
  have hrows : ∀ r, Block.Visits [.assign "x" 7, .move .right, .output "x"] (.initial []) r →
      0 ≤ r ∧ r ≤ 1 := by
    rintro r (rfl | ⟨_, rfl, (rfl | rfl) | ⟨_, rfl, rfl | ⟨_, rfl, rfl⟩⟩⟩) <;>
      exact ⟨by decide, by decide⟩
  have hroom : (1 - 0 + 1) * (compiled.layout.width : Int) ≤ 2 := by
    rw [(code_of_compile hparse hnames hcompiled).1]
    decide
  obtain ⟨hhalts, hleaves⟩ := hcorrect compiled hcompiled [] 2 0 1 hrows hroom
  obtain ⟨steps, outcome, hrun⟩ := hhalts.2 ⟨_, _, rfl, _, rfl, _, rfl, rfl⟩
  obtain ⟨final, ⟨_, rfl, _, rfl, _, rfl, rfl⟩, hfinal⟩ := hleaves steps outcome hrun
  exact ⟨steps, outcome, hrun, hfinal.output.trans rfl⟩

end TapeCompiler
