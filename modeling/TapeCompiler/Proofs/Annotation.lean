import TapeCompiler.Proofs.Correctness
import TapeCompiler.Proofs.Text.Lines
/-!
# Annotation

An annotated listing has one comment line more for each statement of the outermost block, and but
for these lines it is the listing without annotation. What else is compiled, the code, the offsets
of the cells and the width of a row, is the same, and so is every error (`compile_annotated`).
-/
namespace TapeCompiler

open TapeCompiler.Asm TapeCompiler.Text

/-! ## Comment lines -/

/-- The line begins as the line of a comment does. -/
def isCommentLine (line : String) : Bool := ['#', ' '].isPrefixOf line.toList

/-- A text without its comment lines. -/
def withoutComments (text : String) : String :=
  "\n".intercalate ((lines text).filter fun line => !isCommentLine line)

theorem exists_toList_intercalate (separator word : String) (rest : List String) :
    ∃ tail, (separator.intercalate (word :: rest)).toList = word.toList ++ tail := by
  cases rest with
  | nil => exact ⟨[], by simp⟩
  | cons next rest => exact ⟨_, toList_intercalate_cons separator word next rest⟩

/-- The lines of comments begin as such, and no others do. A definition begins with a number sign
too, but no blank follows it. -/
theorem isCommentLine_line (instr : Instr Ref) : isCommentLine instr.line = instr.isComment := by
  obtain ⟨name, value, rfl⟩ | ⟨text, rfl⟩ | ⟨hcomment, m, hwords, -⟩ := instr.forms
  · obtain ⟨tail, hline⟩ := exists_toList_intercalate " " "#define" [name, value.text]
    rw [isCommentLine, Instr.line, Instr.words, hline]
    rfl
  · rw [isCommentLine, Instr.line, Instr.words, toList_intercalate_cons]
    rfl
  · obtain ⟨tail, hline⟩ := exists_toList_intercalate " " m.word (instr.refs.map Ref.text)
    rw [hcomment, isCommentLine, Instr.line, hwords, hline]
    obtain ⟨⟨hne, -⟩, -, hsign⟩ := m.word_spec
    obtain ⟨c, more, hword⟩ := List.exists_cons_of_ne_nil hne
    rw [hword] at hsign ⊢
    have hc : ('#' == c) = false := beq_false_of_ne fun h => hsign (by rw [← h]; rfl)
    rw [List.cons_append, List.isPrefixOf, hc, Bool.false_and]

theorem line_comment (text : String) : (Instr.comment text : Instr Ref).line = "# " ++ text := by
  simp [Instr.line, Instr.words]

section

variable {instrs : List (Instr Ref)}

theorem filter_comments_render (h : ∀ instr ∈ instrs, instr.Written) :
    (lines (render instrs)).filter isCommentLine =
      (instrs.filter Instr.isComment).map Instr.line := by
  have hcomments : isCommentLine ∘ Instr.line = Instr.isComment := funext isCommentLine_line
  rw [lines_render h, List.filter_append, List.filter_map, hcomments]
  exact List.append_nil _

/-- Without comment lines a text is that of the instructions that are no comments. -/
theorem withoutComments_render (h : ∀ instr ∈ instrs, instr.Written) :
    withoutComments (render instrs) = render (instrs.filter fun instr => !instr.isComment) := by
  have hwritten : ∀ instr ∈ instrs.filter fun instr => !instr.isComment, instr.Written :=
    fun instr hmem => h instr (List.mem_filter.1 hmem).1
  have hkept : (fun line => !isCommentLine line) ∘ Instr.line = fun instr => !instr.isComment :=
    funext fun instr => congrArg Bool.not (isCommentLine_line instr)
  rw [withoutComments, lines_render h, List.filter_append, List.filter_map, hkept,
    ← intercalate_lines (render (instrs.filter _)), lines_render hwritten]
  rfl

end

/-! ## Annotated programs -/

/-- The comments in the body of an annotated program name its statements in their order. -/
theorem filter_isComment_lowerProgram (program : Block) :
    (lowerProgram true program).filter Instr.isComment =
      program.map fun statement => .comment statement.headline := by
  induction program with
  | nil => rfl
  | cons statement rest ih =>
    have hstatement : (lowerStatement 0 statement).filter Instr.isComment = [] := by
      refine List.filter_eq_nil_iff.2 fun instr hmem => ?_
      rw [(overCells_lowerStatement statement 0 (fun _ => id) instr hmem).not_comment]
      exact Bool.false_ne_true
    rw [lowerProgram, List.flatMap_cons, List.filter_append, List.filter_append, hstatement,
      List.append_nil, List.map_cons]
    exact congrArg (_ :: ·) ih

/-- What is compiled from a program with annotation and without it. -/
structure Annotates (program : Block) (annotated plain : Compiled) : Prop where
  code : annotated.code = plain.code
  layout : annotated.layout = plain.layout
  listing : withoutComments annotated.listing = plain.listing
  comments : (lines annotated.listing).filter isCommentLine =
    program.map fun statement => "# " ++ statement.headline

variable {source : String} {program : Block}

theorem listing_of_compile {annotate : Bool} {compiled : Compiled}
    (hparse : parse source = .ok program) (hnames : reservedName? program = none)
    (h : compile ⟨annotate, false⟩ source = .ok compiled) :
    compiled.listing = render ((layoutOf program).header ++ lowerProgram annotate program) := by
  rw [compile_eq hparse hnames] at h
  obtain ⟨code, -, rfl⟩ := map_eq_ok.1 h
  rfl

theorem annotates_of_compile {annotated plain : Compiled} (hparse : parse source = .ok program)
    (hnames : reservedName? program = none)
    (hannotated : compile ⟨true, false⟩ source = .ok annotated)
    (hplain : compile ⟨false, false⟩ source = .ok plain) : Annotates program annotated plain := by
  obtain ⟨hlayout, hcode⟩ := code_of_compile hparse hnames hannotated
  obtain ⟨hlayout', hcode'⟩ := code_of_compile hparse hnames hplain
  have hwf := wellFormed_of_parse hparse
  have hwritten := written_listing hwf (reservedName?_eq_none.1 hnames) true
  refine ⟨hcode.trans hcode'.symm, hlayout.trans hlayout'.symm, ?_, ?_⟩
  · rw [listing_of_compile hparse hnames hannotated, listing_of_compile hparse hnames hplain,
      withoutComments_render hwritten, filter_listing, lowerProgram_false]
  · have hheader : (layoutOf program).header.filter Instr.isComment = [] :=
      List.filter_eq_nil_iff.2 fun instr hmem => by simp [not_isComment_of_mem_header hmem]
    rw [listing_of_compile hparse hnames hannotated, filter_comments_render hwritten,
      List.filter_append, hheader, filter_isComment_lowerProgram, List.nil_append, List.map_map]
    exact List.map_congr_left fun statement _ => line_comment _

/-- **Annotation changes nothing but comments.** A text shorter than `countLimit`, as every text is
that is held in memory, is refused with and without annotation for the same failure, or it is
compiled both times: to the same code, with the same offsets of cells and the same width of a row.
The annotated listing without the lines that begin as comments is the other one, and there are as
many such lines as the program has statements in its outermost block, each naming its statement. -/
theorem compile_annotated {source : String} (hlength : source.length < countLimit) :
    (∃ failure, ∀ annotate, compile ⟨annotate, false⟩ source = .error failure) ∨
      ∃ program annotated plain, parse source = .ok program ∧
        compile ⟨true, false⟩ source = .ok annotated ∧
        compile ⟨false, false⟩ source = .ok plain ∧
        Annotates program annotated plain ∧
        ((lines annotated.listing).filter isCommentLine).length = program.length := by
  cases hparse : parse source with
  | error failure => exact .inl ⟨failure, fun _ => bind_eq_error.2 (.inl hparse)⟩
  | ok program =>
    cases hnames : reservedName? program with
    | some name => exact .inl ⟨.reservedName name, fun _ => compile_of_reserved hparse hnames⟩
    | none =>
      have hcompiled (annotate : Bool) :
          ∃ compiled, compile ⟨annotate, false⟩ source = .ok compiled :=
        exists_compiled hparse hnames hlength
      obtain ⟨annotated, hannotated⟩ := hcompiled true
      obtain ⟨plain, hplain⟩ := hcompiled false
      have hannotates := annotates_of_compile hparse hnames hannotated hplain
      refine .inr ⟨program, annotated, plain, rfl, hannotated, hplain, hannotates, ?_⟩
      rw [hannotates.comments, List.length_map]

/-- Two statements, and one more inside the second. -/
theorem compile_annotated_loop : ∃ annotated plain,
    compile ⟨true, false⟩ "x = 1 while x != 0 \x7bx = 0\x7d" = .ok annotated ∧
      compile ⟨false, false⟩ "x = 1 while x != 0 \x7bx = 0\x7d" = .ok plain ∧
      annotated.code = plain.code ∧ withoutComments annotated.listing = plain.listing ∧
      (lines annotated.listing).filter isCommentLine = ["# x = 1", "# while x != 0"] := by
  have htokens : Scan.tokens "x = 1 while x != 0 \x7bx = 0\x7d" = .ok
      [⟨.name, "x", ⟨1, 1⟩⟩, ⟨.assign, "=", ⟨1, 3⟩⟩, ⟨.number, "1", ⟨1, 5⟩⟩,
        ⟨.name, "while", ⟨1, 7⟩⟩, ⟨.name, "x", ⟨1, 13⟩⟩, ⟨.notEqual, "!=", ⟨1, 15⟩⟩,
        ⟨.number, "0", ⟨1, 18⟩⟩, ⟨.openBrace, "\x7b", ⟨1, 20⟩⟩, ⟨.name, "x", ⟨1, 21⟩⟩,
        ⟨.assign, "=", ⟨1, 23⟩⟩, ⟨.number, "0", ⟨1, 25⟩⟩, ⟨.closeBrace, "\x7d", ⟨1, 26⟩⟩,
        ⟨.endOfInput, "", ⟨1, 27⟩⟩] := by
    rfl
  have hparse : parse "x = 1 while x != 0 \x7bx = 0\x7d" =
      .ok [.assign "x" 1, .loop [⟨"x", .notEqual, 0⟩] [.assign "x" 0]] := by
    rw [parse, tokenize, htokens]
    rfl
  have hnames :
      reservedName? [.assign "x" 1, .loop [⟨"x", .notEqual, 0⟩] [.assign "x" 0]] = none := by decide
  have hlength : "x = 1 while x != 0 \x7bx = 0\x7d".length < countLimit := by decide
  rcases compile_annotated hlength with
    ⟨failure, hfails⟩ | ⟨program, annotated, plain, hprogram, hannotated, hplain, hsame, -⟩
  · obtain ⟨compiled, hcompiled⟩ := exists_compiled hparse hnames hlength
    cases (hfails false).symm.trans hcompiled
  · cases hparse.symm.trans hprogram
    exact ⟨annotated, plain, hannotated, hplain, hsame.code, hsame.listing, hsame.comments⟩

end TapeCompiler
