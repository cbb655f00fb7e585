import TapeCompiler.Proofs.Correctness
import TapeCompiler.Proofs.Lowering.Renaming
import TapeCompiler.Proofs.Source.Printing
/-!
# Names do not matter

Names of variables end up in the code only as offsets. So a program in which the variables have
other names, each its own, is compiled to the same code, and every variable is found where it was
under its old name (`compile_rename`). A variable may be named like an instruction, or like another
variable before.
-/
namespace TapeCompiler

open TapeCompiler.Asm

/-- Renames the given names and keeps all others. -/
def renameOnly (names : List String) (ρ : String → String) (x : String) : String :=
  if x ∈ names then ρ x else x

/-- The same program compiled with other names for its variables: the same code, and each variable
in the row where it was. -/
structure Compiled.Renamed (names : List String) (ρ : String → String)
    (compiled renamed : Compiled) : Prop where
  code : renamed.code = compiled.code
  width : renamed.layout.width = compiled.layout.width
  symbols : renamed.layout.symbols =
    compiled.layout.symbols.map fun (x, off) => (renameOnly names ρ x, off)

section

variable {program : Block} {ρ : String → String}

theorem renameOnly_of_isReserved (hnames : ∀ x ∈ namesOf program, isReserved x = false) {x : String}
    (hx : isReserved x = true) : renameOnly (namesOf program) ρ x = x := by
  refine if_neg fun hmem => ?_
  simp [hnames x hmem] at hx

theorem keepsApart_renameOnly (hnames : ∀ x ∈ namesOf program, isReserved x = false)
    (hinj : Set.InjOn ρ {x | x ∈ namesOf program})
    (hρ : ∀ x ∈ namesOf program, isReserved (ρ x) = false) :
    KeepsApart program (renameOnly (namesOf program) ρ) where
  internal _ := renameOnly_of_isReserved hnames
  injOn := by
    have hvariable : ∀ x ∈ namesOf program, renameOnly (namesOf program) ρ x = ρ x :=
      fun x hx => if_pos hx
    have hreserved : ∀ x, isReserved x = true → renameOnly (namesOf program) ρ x = x :=
      fun _ => renameOnly_of_isReserved hnames
    rintro x (hx | hx) y (hy | hy) heq
    · rw [hvariable x hx, hvariable y hy] at heq
      exact hinj hx hy heq
    -- a variable never gets a reserved name
    · rw [hvariable x hx, hreserved y hy] at heq
      exact absurd heq (ne_of_isReserved (hρ x hx) hy)
    · rw [hreserved x hx, hvariable y hy] at heq
      exact absurd heq.symm (ne_of_isReserved (hρ y hy) hx)
    · rwa [hreserved x hx, hreserved y hy] at heq

theorem rename_renameOnly (program : Block) (ρ : String → String) :
    Block.rename ρ program = Block.rename (renameOnly (namesOf program) ρ) program :=
  Block.rename_congr fun _ hx => (if_pos hx).symm

/-- What is assembled depends on the numbers for which the names stand, and on the width alone. -/
theorem assemble_text_congr {other : Block} {annotate : Bool} {code : List Op}
    (hwf : Block.WellFormed program) (hnames : ∀ x ∈ namesOf program, isReserved x = false)
    (hwf' : Block.WellFormed other) (hnames' : ∀ x ∈ namesOf other, isReserved x = false)
    (hresolved : resolvedOf other = resolvedOf program)
    (hwidth : (layoutOf other).width = (layoutOf program).width) :
    assembleText (render ((layoutOf other).header ++ lowerProgram annotate other)) = .ok code ↔
      assembleText (render ((layoutOf program).header ++ lowerProgram annotate program)) =
        .ok code := by
  rw [assembleText, assembleText, mapError_eq_ok, mapError_eq_ok, assemble_text_iff hwf hnames,
    assemble_text_iff hwf' hnames', hresolved, hwidth]

end

/-- **Compilation is invariant under the renaming of variables.** Let the variables of a program
without reserved names be given other names, no two the same and none of them reserved. The program
with these names can be written down, and however it is written it is compiled exactly when the
first one is: to the same code, with rows of the same width, and with the same symbols in the same
order under their new names, internal names as they were. -/
theorem compile_rename {source : String} {program : Block} {ρ : String → String}
    (hparse : parse source = .ok program) (hnames : reservedName? program = none)
    (hinj : Set.InjOn ρ {x | x ∈ namesOf program})
    (hρ : ∀ x ∈ namesOf program, IsVariable (ρ x) ∧ isReserved (ρ x) = false) (annotate : Bool) :
    (∃ other, parse other = .ok (Block.rename ρ program)) ∧
    (source.length < countLimit → ∃ compiled, compile ⟨annotate, false⟩ source = .ok compiled) ∧
    ∀ other, parse other = .ok (Block.rename ρ program) →
      (∀ compiled, compile ⟨annotate, false⟩ source = .ok compiled →
        ∃ renamed, compile ⟨annotate, false⟩ other = .ok renamed ∧
          compiled.Renamed (namesOf program) ρ renamed) ∧
      ∀ renamed, compile ⟨annotate, false⟩ other = .ok renamed →
        ∃ compiled, compile ⟨annotate, false⟩ source = .ok compiled := by
  have hwf := wellFormed_of_parse hparse
  have hwf' : Block.WellFormed (Block.rename ρ program) := hwf.rename fun x hx => (hρ x hx).1
  have hvariables := reservedName?_eq_none.1 hnames
  have hvariables' : ∀ x ∈ namesOf (Block.rename ρ program), isReserved x = false := by
    rw [namesOf_rename, List.forall_mem_map]
    exact fun x hx => (hρ x hx).2
  have hapart := keepsApart_renameOnly hvariables hinj fun x hx => (hρ x hx).2
  have hlayout : (layoutOf (Block.rename ρ program)).names =
      (layoutOf program).names.map (renameOnly (namesOf program) ρ) := by
    rw [rename_renameOnly]
    exact names_layoutOf_rename hapart
  have hresolved : resolvedOf (Block.rename ρ program) = resolvedOf program := by
    rw [rename_renameOnly]
    exact resolvedOf_rename hwf hvariables hapart
  have hcode : ∀ code, assembleText (render ((layoutOf (Block.rename ρ program)).header ++
      lowerProgram annotate (Block.rename ρ program))) = .ok code ↔
      assembleText (render ((layoutOf program).header ++ lowerProgram annotate program)) =
        .ok code :=
    fun _ => assemble_text_congr hwf hvariables hwf' hvariables' hresolved
      (Layout.width_rename hlayout)
  refine ⟨?_, exists_compiled hparse hnames, fun other hother => ?_⟩
  · obtain ⟨other, hother⟩ := exists_programPrinting (Block.rename ρ program)
    exact ⟨other, parse_of_mem_printings hwf' hother⟩
  · rw [compile_eq hparse hnames, compile_eq hother (reservedName?_eq_none.2 hvariables')]
    simp only [map_eq_ok, hcode]
    constructor
    · rintro _ ⟨code, h, rfl⟩
      exact ⟨_, ⟨code, h, rfl⟩, rfl, Layout.width_rename hlayout, Layout.symbols_rename hlayout⟩
    · rintro _ ⟨code, h, -⟩
      exact ⟨_, code, h, rfl⟩

/-- A variable takes the name of another one, which is named like an instruction from then on. -/
theorem compile_rename_shift :
    ∃ compiled renamed, compile ⟨false, false⟩ "x = 2 y = 3 output(x)" = .ok compiled ∧
      compile ⟨false, false⟩ "y = 2 add = 3 output(y)" = .ok renamed ∧
      renamed.code = compiled.code ∧
      compiled.layout.symbols = [("x", 0), ("y", 1)] ∧
      renamed.layout.symbols = [("y", 0), ("add", 1)] := by
  have htokens : Scan.tokens "x = 2 y = 3 output(x)" = .ok
      [⟨.name, "x", ⟨1, 1⟩⟩, ⟨.assign, "=", ⟨1, 3⟩⟩, ⟨.number, "2", ⟨1, 5⟩⟩,
        ⟨.name, "y", ⟨1, 7⟩⟩, ⟨.assign, "=", ⟨1, 9⟩⟩, ⟨.number, "3", ⟨1, 11⟩⟩,
        ⟨.name, "output", ⟨1, 13⟩⟩, ⟨.openParen, "(", ⟨1, 19⟩⟩, ⟨.name, "x", ⟨1, 20⟩⟩,
        ⟨.closeParen, ")", ⟨1, 21⟩⟩, ⟨.endOfInput, "", ⟨1, 22⟩⟩] := by
    rfl
  have htokens' : Scan.tokens "y = 2 add = 3 output(y)" = .ok
      [⟨.name, "y", ⟨1, 1⟩⟩, ⟨.assign, "=", ⟨1, 3⟩⟩, ⟨.number, "2", ⟨1, 5⟩⟩,
        ⟨.name, "add", ⟨1, 7⟩⟩, ⟨.assign, "=", ⟨1, 11⟩⟩, ⟨.number, "3", ⟨1, 13⟩⟩,
        ⟨.name, "output", ⟨1, 15⟩⟩, ⟨.openParen, "(", ⟨1, 21⟩⟩, ⟨.name, "y", ⟨1, 22⟩⟩,
        ⟨.closeParen, ")", ⟨1, 23⟩⟩, ⟨.endOfInput, "", ⟨1, 24⟩⟩] := by
    rfl
  have hparse : parse "x = 2 y = 3 output(x)" =
      .ok [.assign "x" 2, .assign "y" 3, .output "x"] := by
    rw [parse, tokenize, htokens]
    rfl
  have hother : parse "y = 2 add = 3 output(y)" =
      .ok (Block.rename (fun x => if x = "x" then "y" else "add")
        [.assign "x" 2, .assign "y" 3, .output "x"]) := by
    rw [parse, tokenize, htokens']
    rfl
  have hnames : reservedName? [.assign "x" 2, .assign "y" 3, .output "x"] = none := by decide
  have hapart : ∀ x ∈ namesOf [.assign "x" 2, .assign "y" 3, .output "x"],
      ∀ y ∈ namesOf [.assign "x" 2, .assign "y" 3, .output "x"],
        (if x = "x" then "y" else "add") = (if y = "x" then "y" else "add") → x = y := by
    decide
  have hinj : Set.InjOn (fun x => if x = "x" then "y" else "add")
      {x | x ∈ namesOf [.assign "x" 2, .assign "y" 3, .output "x"]} :=
    fun x hx y hy => hapart x hx y hy
  have hρ : ∀ x ∈ namesOf [.assign "x" 2, .assign "y" 3, .output "x"],
      IsVariable (if x = "x" then "y" else "add") ∧
        isReserved (if x = "x" then "y" else "add") = false := by
    unfold IsVariable
    decide
  obtain ⟨-, hexists, hrenamed⟩ := compile_rename hparse hnames hinj hρ false
  obtain ⟨compiled, hcompiled⟩ := hexists (by decide)
  obtain ⟨renamed, hcompiled', h⟩ := (hrenamed _ hother).1 compiled hcompiled
  have hsymbols : compiled.layout.symbols = [("x", 0), ("y", 1)] := by
    rw [(code_of_compile hparse hnames hcompiled).1]
    decide
  refine ⟨compiled, renamed, hcompiled, hcompiled', h.code, hsymbols, ?_⟩
  rw [h.symbols, hsymbols]
  decide

end TapeCompiler
