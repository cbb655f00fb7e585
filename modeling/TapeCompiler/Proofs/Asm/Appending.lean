import TapeCompiler.Proofs.Asm.TextForm
import TapeCompiler.Proofs.Text.Lines
/-!
# Texts behind texts

The stages of the assembler each run over the whole text, one after the other. Still a text is
assembled from the front: what stands behind it does not reach back. Each stage takes a sequence
apart where two were put together, and all that the first part leaves to the second is the table of
its definitions, `definitionsAfter`, and the number of its lines, which shows in errors alone
(`moveDown`).

So a text followed by another is assembled exactly when the first one is and when the second one is
behind the definitions of the first, and the code is that of the first followed by that of the
second (`assemble_append`).
-/
namespace TapeCompiler.Asm

open TapeCompiler.Text

/-! ## Lines -/

/-- Instructions with `count` more lines before them. -/
def moveDown (count : Nat) (program : Numbered) : Numbered :=
  program.map fun (line, instr) => (line + count, instr)

/-- An error with `count` more lines before it. -/
def Error.moveDown (count : Nat) (e : Error) : Error := { e with line := e.line + count }

theorem map_snd_moveDown (count : Nat) (program : Numbered) :
    (moveDown count program).map Prod.snd = program.map Prod.snd := by
  rw [moveDown, List.map_map]
  rfl

/-! ## Reading -/

theorem readLines_append (line : Nat) (texts more : List String) :
    readLines line (texts ++ more) = do
      let program ← readLines line texts
      return program ++ (← readLines (line + texts.length) more) := by
  induction texts generalizing line with
  | nil =>
    rw [List.nil_append, readLines]
    cases readLines (line + ([] : List String).length) more <;> rfl
  | cons text rest ih =>
    have hline : line + 1 + rest.length = line + (text :: rest).length := by
      rw [List.length_cons]
      omega
    rw [List.cons_append, readLines, readLines, ih, hline]
    cases readLine text with
    | error fault => rfl
    | ok result =>
      cases result with
      | none => rfl
      | some instr =>
        cases readLines (line + 1) rest with
        | error e => rfl
        | ok program => cases readLines (line + (text :: rest).length) more <;> rfl

/-- The lines before a text move what is read from it. -/
theorem readLines_add (line count : Nat) (texts : List String) :
    readLines (line + count) texts =
      ((readLines line texts).map (moveDown count)).mapError (Error.moveDown count) := by
  induction texts generalizing line with
  | nil => rfl
  | cons text rest ih =>
    rw [readLines, readLines, Nat.add_right_comm, ih]
    cases readLine text with
    | error fault => rfl
    | ok result =>
      cases result with
      | none => rfl
      | some instr => cases readLines (line + 1) rest <;> rfl

theorem readProgram_append {a b : String} {program : Numbered} :
    readProgram (a ++ "\n" ++ b) = .ok program ↔
      ∃ first rest, readProgram a = .ok first ∧ readProgram b = .ok rest ∧
        program = first ++ moveDown (lines a).length rest := by
  rw [readProgram, lines_append, readLines_append, readLines_add]
  simp only [bind_eq_ok, mapError_eq_ok, map_eq_ok, pure, Except.pure, Except.ok.injEq]
  constructor
  · rintro ⟨first, hfirst, _, ⟨rest, hrest, rfl⟩, rfl⟩
    exact ⟨first, rest, hfirst, hrest, rfl⟩
  · rintro ⟨first, rest, hfirst, hrest, rfl⟩
    exact ⟨first, hfirst, _, ⟨rest, hrest, rfl⟩, rfl⟩

/-! ## Expansion -/

/-- The definitions met up to the end of an instruction. -/
def Instr.definitionsAfter (definitions : Definitions) : Instr Ref → Definitions
  | define name value =>
    match value.resolve definitions with
    | .number n => (name, n) :: definitions
    | .name _ => definitions
  | _ => definitions

/-- The definitions met up to the end of a program. -/
def definitionsAfter (definitions : Definitions) (program : Numbered) : Definitions :=
  program.foldl (fun definitions entry => entry.2.definitionsAfter definitions) definitions

theorem Instr.definitionsAfter_of_not_define {instr : Instr Ref} (h : instr.isDefine = false)
    (definitions : Definitions) : instr.definitionsAfter definitions = definitions := by
  cases instr with
  | define name value => simp [Instr.isDefine] at h
  | _ => rfl

/-- What follows a program is expanded with the definitions that the program leaves. -/
theorem expandFrom_append (definitions : Definitions) (program more : Numbered) :
    expandFrom definitions (program ++ more) = do
      let expanded ← expandFrom definitions program
      return expanded ++ (← expandFrom (definitionsAfter definitions program) more) := by
  induction program generalizing definitions with
  | nil =>
    rw [List.nil_append, expandFrom]
    cases h : expandFrom (definitionsAfter definitions []) more <;> exact h
  | cons entry rest ih =>
    obtain ⟨line, instr⟩ := entry
    rw [List.cons_append, definitionsAfter, List.foldl_cons, ← definitionsAfter]
    cases hdefine : instr.isDefine with
    | true =>
      obtain ⟨name, value, rfl⟩ := instr.eq_define hdefine
      rw [expandFrom, expandFrom, Instr.definitionsAfter]
      cases value.resolve definitions with
      | number n => exact ih _
      | name s => rfl
    | false =>
      rw [expandFrom_cons hdefine, expandFrom_cons hdefine, ih,
        Instr.definitionsAfter_of_not_define hdefine]
      cases expandFrom definitions rest with
      | error e => rfl
      | ok expanded => cases expandFrom (definitionsAfter definitions rest) more <;> rfl

theorem expandFrom_moveDown (definitions : Definitions) (count : Nat) (program : Numbered) :
    expandFrom definitions (moveDown count program) =
      ((expandFrom definitions program).map (moveDown count)).mapError (Error.moveDown count) := by
  induction program generalizing definitions with
  | nil => rfl
  | cons entry rest ih =>
    obtain ⟨line, instr⟩ := entry
    rw [moveDown, List.map_cons, ← moveDown]
    cases hdefine : instr.isDefine with
    | true =>
      obtain ⟨name, value, rfl⟩ := instr.eq_define hdefine
      rw [expandFrom, expandFrom]
      cases value.resolve definitions with
      | number n => exact ih _
      | name s => rfl
    | false =>
      rw [expandFrom_cons hdefine, expandFrom_cons hdefine, ih]
      cases expandFrom definitions rest <;> rfl

/-! ## Encoding -/

theorem encodeAll_append (program more : Numbered) :
    encodeAll (program ++ more) = do
      let code ← encodeAll program
      return code ++ (← encodeAll more) := by
  induction program with
  | nil =>
    rw [List.nil_append, encodeAll]
    cases encodeAll more <;> rfl
  | cons entry rest ih =>
    obtain ⟨line, instr⟩ := entry
    rw [List.cons_append, encodeAll, encodeAll, ih]
    cases encodeRef instr with
    | error fault => rfl
    | ok code =>
      cases encodeAll rest with
      | error e => rfl
      | ok others =>
        cases encodeAll more with
        | error e => rfl
        | ok last => exact congrArg Except.ok (List.append_assoc code others last).symm

theorem encodeAll_moveDown (count : Nat) (program : Numbered) :
    encodeAll (moveDown count program) = (encodeAll program).mapError (Error.moveDown count) := by
  induction program with
  | nil => rfl
  | cons entry rest ih =>
    obtain ⟨line, instr⟩ := entry
    rw [moveDown, List.map_cons, ← moveDown, encodeAll, encodeAll, ih]
    cases encodeRef instr with
    | error fault => rfl
    | ok code => cases encodeAll rest <;> rfl

theorem render_append (instrs more : List (Instr Ref)) :
    render (instrs ++ more) = render instrs ++ render more := by
  simp [render, String.join_append]

/-! ## Texts behind definitions -/

/-- Reads a text and expands it behind definitions. -/
def readExpanded (definitions : Definitions) (source : String) : Except Error Numbered := do
  expandFrom definitions (← readProgram source)

/-- Expands a text behind definitions into a text. -/
def expandTextFrom (definitions : Definitions) (source : String) : Except Error String :=
  (readExpanded definitions source).map fun expanded => render (expanded.map Prod.snd)

/-- Assembles a text behind definitions. -/
def assembleFrom (definitions : Definitions) (source : String) : Except Error (List Op) := do
  encodeAll (← readExpanded definitions source)

theorem expandText_eq (source : String) : expandText source = expandTextFrom [] source := by
  rw [expandText, expandTextFrom, readExpanded]
  cases readProgram source with
  | error e => rfl
  | ok program =>
    show (expandFrom [] program >>= fun expanded => .ok (render (expanded.map Prod.snd))) =
      (expandFrom [] program).map fun expanded => render (expanded.map Prod.snd)
    cases expandFrom [] program <;> rfl

theorem assemble_eq (source : String) : assemble source = assembleFrom [] source := by
  rw [assemble, assembleFrom, readExpanded]
  cases readProgram source <;> rfl

section

variable {definitions : Definitions} {a b : String}

theorem readExpanded_append {expanded : Numbered} :
    readExpanded definitions (a ++ "\n" ++ b) = .ok expanded ↔
      ∃ program first rest, readProgram a = .ok program ∧
        readExpanded definitions a = .ok first ∧
        readExpanded (definitionsAfter definitions program) b = .ok rest ∧
        expanded = first ++ moveDown (lines a).length rest := by
  simp only [readExpanded, bind_eq_ok, readProgram_append]
  constructor
  · rintro ⟨_, ⟨program, more, ha, hb, rfl⟩, hexpanded⟩
    rw [expandFrom_append] at hexpanded
    obtain ⟨first, hfirst, hexpanded⟩ := bind_eq_ok.1 hexpanded
    obtain ⟨_, hrest, hexpanded⟩ := bind_eq_ok.1 hexpanded
    rw [expandFrom_moveDown, mapError_eq_ok, map_eq_ok] at hrest
    obtain ⟨rest, hrest, rfl⟩ := hrest
    exact ⟨program, first, rest, ha, ⟨program, ha, hfirst⟩, ⟨more, hb, hrest⟩,
      (Except.ok.inj hexpanded).symm⟩
  · rintro ⟨program, first, rest, ha, ⟨program', ha', hfirst⟩, ⟨more, hb, hrest⟩, rfl⟩
    obtain rfl : program = program' := Except.ok.inj (ha.symm.trans ha')
    refine ⟨_, ⟨program, more, ha, hb, rfl⟩, ?_⟩
    rw [expandFrom_append, hfirst, expandFrom_moveDown, hrest]
    rfl

theorem expandTextFrom_append {text : String} :
    expandTextFrom definitions (a ++ "\n" ++ b) = .ok text ↔
      ∃ program first rest, readProgram a = .ok program ∧
        expandTextFrom definitions a = .ok first ∧
        expandTextFrom (definitionsAfter definitions program) b = .ok rest ∧
        text = first ++ rest := by
  simp only [expandTextFrom, map_eq_ok, readExpanded_append]
  constructor
  · rintro ⟨_, ⟨program, first, rest, ha, hfirst, hrest, rfl⟩, rfl⟩
    refine ⟨program, _, _, ha, ⟨first, hfirst, rfl⟩, ⟨rest, hrest, rfl⟩, ?_⟩
    rw [List.map_append, map_snd_moveDown, render_append]
  · rintro ⟨program, _, _, ha, ⟨first, hfirst, rfl⟩, ⟨rest, hrest, rfl⟩, rfl⟩
    refine ⟨_, ⟨program, first, rest, ha, hfirst, hrest, rfl⟩, ?_⟩
    rw [List.map_append, map_snd_moveDown, render_append]

theorem assembleFrom_append {code : List Op} :
    assembleFrom definitions (a ++ "\n" ++ b) = .ok code ↔
      ∃ program first rest, readProgram a = .ok program ∧
        assembleFrom definitions a = .ok first ∧
        assembleFrom (definitionsAfter definitions program) b = .ok rest ∧
        code = first ++ rest := by
  simp only [assembleFrom, bind_eq_ok, readExpanded_append]
  constructor
  · rintro ⟨_, ⟨program, expanded, more, ha, hexpanded, hmore, rfl⟩, hcode⟩
    rw [encodeAll_append] at hcode
    obtain ⟨first, hfirst, hcode⟩ := bind_eq_ok.1 hcode
    obtain ⟨rest, hrest, hcode⟩ := bind_eq_ok.1 hcode
    rw [encodeAll_moveDown, mapError_eq_ok] at hrest
    exact ⟨program, first, rest, ha, ⟨expanded, hexpanded, hfirst⟩, ⟨more, hmore, hrest⟩,
      (Except.ok.inj hcode).symm⟩
  · rintro ⟨program, first, rest, ha, ⟨expanded, hexpanded, hfirst⟩, ⟨more, hmore, hrest⟩, rfl⟩
    refine ⟨_, ⟨program, expanded, more, ha, hexpanded, hmore, rfl⟩, ?_⟩
    rw [encodeAll_append, hfirst, encodeAll_moveDown, hrest]
    rfl

end

/-- **Assembly is incremental.** A text followed by another is assembled exactly when the first one
is and the second one is behind the definitions that the first one leaves, and then the code of the
first one comes first; texts are expanded in the same way. So what fails on its own fails whatever
stands behind it. -/
theorem assemble_append (a b : String) :
    (∀ code, assemble (a ++ "\n" ++ b) = .ok code ↔
      ∃ program first rest, readProgram a = .ok program ∧ assemble a = .ok first ∧
        assembleFrom (definitionsAfter [] program) b = .ok rest ∧ code = first ++ rest) ∧
    (∀ text, expandText (a ++ "\n" ++ b) = .ok text ↔
      ∃ program first rest, readProgram a = .ok program ∧ expandText a = .ok first ∧
        expandTextFrom (definitionsAfter [] program) b = .ok rest ∧ text = first ++ rest) ∧
    (∀ e, assemble a = .error e → ∃ e', assemble (a ++ "\n" ++ b) = .error e') ∧
    ∀ e, expandText a = .error e → ∃ e', expandText (a ++ "\n" ++ b) = .error e' := by
  simp only [assemble_eq, expandText_eq]
  refine ⟨fun code => assembleFrom_append, fun text => expandTextFrom_append, ?_, ?_⟩
  · intro e he
    refine exists_error_of_not_ok fun code hcode => ?_
    obtain ⟨-, first, -, -, hfirst, -⟩ := assembleFrom_append.1 hcode
    simp [he] at hfirst
  · intro e he
    refine exists_error_of_not_ok fun text htext => ?_
    obtain ⟨-, first, -, -, hfirst, -⟩ := expandTextFrom_append.1 htext
    simp [he] at hfirst

/-- A name is defined anew behind its first use. -/
theorem assemble_append_redefined :
    assemble ("#define n 1\nset 0 n" ++ "\n" ++ "add n n\n#define n 2\nadd 0 n") =
      .ok (readCode "[-]+>+<++") ∧
    ∃ e, assemble ("add 0 n" ++ "\n" ++ "#define n 1") = .error e := by
  constructor
  · exact ((assemble_append _ _).1 _).2
      ⟨[(1, .define "n" (.number 1)), (2, .set (.number 0) (.name "n"))], readCode "[-]+",
        readCode ">+<++", rfl, rfl, rfl, rfl⟩
  · exact (assemble_append _ _).2.2.1 ⟨1, .unresolvedOperand "n" (.add (.number 0) (.name "n"))⟩ rfl

end TapeCompiler.Asm
