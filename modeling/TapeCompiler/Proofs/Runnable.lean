import TapeCompiler.Proofs.Correctness
import TapeCompiler.Proofs.Machine.Balance
/-!
# Compiled programs can be run

Whatever the code of a program does, it is code: the machine loads it and never fails on it, so a
run halts or goes on for ever (`compile_runnable`).
-/
namespace TapeCompiler

/-- The characters of machine code. -/
def codeCharacters : List Char := "+-<>[].,".toList

theorem mem_codeCharacters (op : Op) : op.symbol ∈ codeCharacters := by
  cases op <;> decide

theorem forall_mem_codeText (code : List Op) :
    ∀ c ∈ (codeText code).toList, c ∈ codeCharacters := by
  rw [codeText, String.toList_ofList, List.forall_mem_map]
  exact fun op _ => mem_codeCharacters op

/-- A text that is code throughout, and that runs on every tape with cells. -/
structure Machine.Runnable (text : String) : Prop where
  characters : ∀ c ∈ text.toList, c ∈ codeCharacters
  balanced : Balanced ((readCode text).map Op.bracket?)
  /-- No number of steps ends in a failure. -/
  never_fails : ∀ (input : List UInt8) (tapeSize : Int), 1 ≤ tapeSize → ∀ steps failure,
    run steps (readCode text) input tapeSize ≠ some (.error failure)
  halts_or_goes_on : ∀ (input : List UInt8) (tapeSize : Int), 1 ≤ tapeSize →
    (∃ steps outcome, run steps (readCode text) input tapeSize = some (.ok outcome)) ∨
      ∀ steps, run steps (readCode text) input tapeSize = none

theorem Machine.runnable_codeText {code : List Op} (h : WellNested (code.map Op.piece)) :
    Runnable (codeText code) := by
  have hfails : ∀ (input : List UInt8) (tapeSize : Int), 1 ≤ tapeSize → ∀ steps failure,
      run steps code input tapeSize ≠ some (.error failure) := by
    intro input tapeSize hsize
    obtain ⟨size, rfl⟩ := Int.eq_ofNat_of_zero_le (by omega : 0 ≤ tapeSize)
    exact run_ne_error h (by omega) input
  refine ⟨forall_mem_codeText code, ?_, ?_, ?_⟩ <;> rw [readCode_codeText]
  · exact (wellNested_iff_balanced code).1 h
  · exact hfails
  · intro input tapeSize hsize
    refine or_iff_not_imp_right.2 fun hends => ?_
    obtain ⟨steps, hsteps⟩ := not_forall.1 hends
    obtain ⟨answer, hanswer⟩ := Option.ne_none_iff_exists'.1 hsteps
    cases answer with
    | ok outcome => exact ⟨steps, outcome, hanswer⟩
    | error failure => exact absurd hanswer (hfails input tapeSize hsize steps failure)

/-- The loops of a compiled program are well nested. -/
theorem wellNested_codeOf (program : Block) : WellNested ((codeOf program).map Op.piece) :=
  Asm.nested_encode_all (nested_codeOf program)

/-- **Compiled programs can be run.** A program without reserved names is compiled, commented or
not; its text only has to be shorter than `countLimit`, as every text is that is held in memory. The
text of its code holds code characters only and its brackets balance, so on a tape with cells a run
of it never fails: it halts or goes on for ever. -/
theorem compile_runnable {source : String} {program : Block} (hparse : parse source = .ok program)
    (hnames : reservedName? program = none) (annotate : Bool) :
    (source.length < Asm.countLimit →
      ∃ compiled, compile ⟨annotate, false⟩ source = .ok compiled) ∧
    ∀ compiled, compile ⟨annotate, false⟩ source = .ok compiled →
      Machine.Runnable (codeText compiled.code) := by
  refine ⟨exists_compiled hparse hnames, fun compiled hcompiled => ?_⟩
  rw [(code_of_compile hparse hnames hcompiled).2]
  exact Machine.runnable_codeText (wellNested_codeOf program)

/-- A loop over a variable that is named like an instruction. -/
theorem compile_runnable_loop :
    parse "add = 1 while add == 1 \x7b\x7d" =
      .ok [.assign "add" 1, .loop [⟨"add", .equal, 1⟩] []] ∧
    reservedName? [.assign "add" 1, .loop [⟨"add", .equal, 1⟩] []] = none ∧
    ∃ compiled, compile ⟨true, false⟩ "add = 1 while add == 1 \x7b\x7d" = .ok compiled ∧
      Machine.Runnable (codeText compiled.code) := by
  have htokens : Scan.tokens "add = 1 while add == 1 \x7b\x7d" = .ok
      [⟨.name, "add", ⟨1, 1⟩⟩, ⟨.assign, "=", ⟨1, 5⟩⟩, ⟨.number, "1", ⟨1, 7⟩⟩,
        ⟨.name, "while", ⟨1, 9⟩⟩, ⟨.name, "add", ⟨1, 15⟩⟩, ⟨.equal, "==", ⟨1, 19⟩⟩,
        ⟨.number, "1", ⟨1, 22⟩⟩, ⟨.openBrace, "\x7b", ⟨1, 24⟩⟩, ⟨.closeBrace, "\x7d", ⟨1, 25⟩⟩,
        ⟨.endOfInput, "", ⟨1, 26⟩⟩] := by
    rfl
  have hparse : parse "add = 1 while add == 1 \x7b\x7d" =
      .ok [.assign "add" 1, .loop [⟨"add", .equal, 1⟩] []] := by
    rw [parse, tokenize, htokens]
    rfl
  have hnames : reservedName? [.assign "add" 1, .loop [⟨"add", .equal, 1⟩] []] = none := by decide
  obtain ⟨hexists, hruns⟩ := compile_runnable hparse hnames true
  obtain ⟨compiled, hcompiled⟩ := hexists (by decide)
  exact ⟨hparse, hnames, compiled, hcompiled, hruns compiled hcompiled⟩

end TapeCompiler
