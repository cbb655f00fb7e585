import TapeCompiler.Asm.Definition
import TapeCompiler.Proofs.Except
import TapeCompiler.Proofs.Text.Characters
/-!
# Reading what was rendered

An instruction whose names are names and whose numbers can be read is rendered as one line from
which it is read again (`readLine_line`). So the text of instructions is read as those instructions,
comments left out, each with its place as its line (`readProgram_render`).
-/
namespace TapeCompiler.Asm

open TapeCompiler.Text

/-! ## Words -/

/-- A text that is one word of a line. -/
def IsWord (word : String) : Prop := word.toList ≠ [] ∧ ∀ c ∈ word.toList, isBlank c = false

theorem words_append_blank {word rest : List Char} (hne : word ≠ [])
    (hword : ∀ c ∈ word, isBlank c = false) : words (word ++ ' ' :: rest) = word :: words rest := by
  rw [words, List.splitOnP_append_cons_of_forall_mem hword ' ' (by decide),
    List.filter_cons_of_pos (by simp [hne])]
  rfl

theorem toList_intercalate_cons (separator word next : String) (rest : List String) :
    (separator.intercalate (word :: next :: rest)).toList =
      word.toList ++ (separator.toList ++ (separator.intercalate (next :: rest)).toList) := by
  simp [String.toList_intercalate]

/-- Words with single blanks between them are the words of their line. -/
theorem words_intercalate {ws : List String} (h : ∀ word ∈ ws, IsWord word) :
    words (" ".intercalate ws).toList = ws.map String.toList := by
  induction ws with
  | nil => rfl
  | cons word rest ih =>
    rw [List.forall_mem_cons] at h
    cases rest with
    | nil =>
      have hline : " ".intercalate [word] = word := by simp
      rw [hline, words, List.splitOnP_eq_singleton h.1.2,
        List.filter_cons_of_pos (by simp [h.1.1])]
      rfl
    | cons next rest =>
      rw [toList_intercalate_cons]
      show words (word.toList ++ ' ' :: (" ".intercalate (next :: rest)).toList) = _
      rw [words_append_blank h.1.1 h.1.2, ih h.2]
      rfl

theorem not_lineFeed_mem_intercalate {separator : String} {ws : List String}
    (hseparator : '\n' ∉ separator.toList) (h : ∀ word ∈ ws, '\n' ∉ word.toList) :
    '\n' ∉ (separator.intercalate ws).toList := by
  induction ws with
  | nil => exact List.not_mem_nil
  | cons word rest ih =>
    rw [List.forall_mem_cons] at h
    cases rest with
    | nil =>
      have hline : separator.intercalate [word] = word := by simp
      exact hline ▸ h.1
    | cons next rest =>
      rw [toList_intercalate_cons, List.mem_append, List.mem_append]
      rintro (hmem | hmem | hmem)
      · exact h.1 hmem
      · exact hseparator hmem
      · exact ih h.2 hmem

theorem IsWord.not_lineFeed_mem {word : String} (h : IsWord word) : '\n' ∉ word.toList := by
  intro hmem
  have hblank : isBlank '\n' = true := by decide
  rw [h.2 _ hmem] at hblank
  simp at hblank

/-! ## Names and numbers -/

theorem isWord_of_isName {name : String} (h : isName name.toList = true) : IsWord name := by
  obtain ⟨hne, hall, -⟩ := isName_spec h
  exact ⟨hne, fun c hc => isBlank_of_isNameChar (hall c hc)⟩

/-- An operand that is written as one word: a name, or a number without a sign. -/
def Ref.Written : Ref → Prop
  | .number n => 0 ≤ n
  | .name s => isName s.toList = true

/-- A number that is not too long to be read. -/
def Ref.Short : Ref → Prop
  | .number n => (Nat.toDigits 10 n.toNat).length ≤ digitLimit
  | .name _ => True

instance : DecidablePred Ref.Written
  | .number n => inferInstanceAs (Decidable (0 ≤ n))
  | .name s => inferInstanceAs (Decidable (isName s.toList = true))

instance : DecidablePred Ref.Short
  | .number n => inferInstanceAs (Decidable ((Nat.toDigits 10 n.toNat).length ≤ digitLimit))
  | .name _ => inferInstanceAs (Decidable True)

theorem Ref.Written.isWord {ref : Ref} (h : ref.Written) : IsWord ref.text := by
  cases ref with
  | name s => exact isWord_of_isName h
  | number n =>
    obtain ⟨k, rfl⟩ := Int.eq_ofNat_of_zero_le h
    rw [IsWord, Ref.text, toList_toString_natCast]
    refine ⟨Nat.toDigits_ne_nil, fun c hc => isBlank_of_isNameChar (isNameChar_of_isDigit ?_)⟩
    exact Nat.isDigit_of_mem_toDigits (by decide) (by decide) hc

theorem readRef_name {s : String} (h : isName s.toList = true) :
    readRef s.toList = .ok (.name s) := by
  obtain ⟨-, -, hdigits⟩ := isName_spec h
  rw [readRef, hdigits, if_neg (by simp), if_pos h, String.ofList_toList]

theorem readRef_text {ref : Ref} (h : ref.Written) (hshort : ref.Short) :
    readRef ref.text.toList = .ok ref := by
  cases ref with
  | name s => exact readRef_name h
  | number n =>
    obtain ⟨k, rfl⟩ := Int.eq_ofNat_of_zero_le h
    have hlength : (Nat.toDigits 10 k).length ≤ digitLimit := hshort
    rw [readRef, Ref.text, toList_toString_natCast, if_pos (isDigits_toDigits k), readDigits,
      if_pos hlength, digitsValue_toDigits]

theorem short_of_readRef {ref result : Ref} (h : ref.Written)
    (hread : readRef ref.text.toList = .ok result) : ref.Short := by
  cases ref with
  | name s => trivial
  | number n =>
    obtain ⟨k, rfl⟩ := Int.eq_ofNat_of_zero_le h
    rw [readRef, Ref.text, toList_toString_natCast, if_pos (isDigits_toDigits k),
      readDigits] at hread
    split at hread
    · next hread' =>
      split at hread'
      · next hlength => exact hlength
      · simp at hread'
    · simp at hread

/-! ## Lines -/

def Instr.isComment {α : Type} : Instr α → Bool
  | .comment _ => true
  | _ => false

/-- The operands of an instruction without their roles. -/
def Instr.refs (instr : Instr Ref) : List Ref := instr.operands.map Prod.snd

/-- An instruction that is written as one line of words. -/
structure Instr.Written (instr : Instr Ref) : Prop where
  refs : ∀ ref ∈ instr.refs, ref.Written
  /-- What is not an operand has its form too. -/
  form : match instr with
    | .define name _ => isName name.toList = true
    | .copy _ targets => targets ≠ []
    | .comment text => '\n' ∉ text.toList
    | _ => True

/-- No number in the instruction is too long to be read. -/
def Instr.Short (instr : Instr Ref) : Prop := ∀ ref ∈ instr.refs, ref.Short

instance (instr : Instr Ref) : Decidable instr.Short :=
  inferInstanceAs (Decidable (∀ ref ∈ instr.refs, ref.Short))

/-- An instruction is a definition, a comment, or a mnemonic with operands. -/
theorem Instr.forms (instr : Instr Ref) :
    (∃ name value, instr = .define name value) ∨ (∃ text, instr = .comment text) ∨
      instr.isComment = false ∧ ∃ m : Mnemonic, instr.words = m.word :: instr.refs.map Ref.text ∧
        (instr.Written → m.apply instr.refs = .ok instr) := by
  cases instr with
  | define name value => exact .inl ⟨name, value, rfl⟩
  | comment text => exact .inr (.inl ⟨text, rfl⟩)
  | add => exact .inr (.inr ⟨rfl, .add, rfl, fun _ => rfl⟩)
  | sub => exact .inr (.inr ⟨rfl, .sub, rfl, fun _ => rfl⟩)
  | set => exact .inr (.inr ⟨rfl, .set, rfl, fun _ => rfl⟩)
  | right => exact .inr (.inr ⟨rfl, .right, rfl, fun _ => rfl⟩)
  | left => exact .inr (.inr ⟨rfl, .left, rfl, fun _ => rfl⟩)
  | openLoop => exact .inr (.inr ⟨rfl, .openLoop, rfl, fun _ => rfl⟩)
  | closeLoop => exact .inr (.inr ⟨rfl, .closeLoop, rfl, fun _ => rfl⟩)
  | read => exact .inr (.inr ⟨rfl, .read, rfl, fun _ => rfl⟩)
  | write => exact .inr (.inr ⟨rfl, .write, rfl, fun _ => rfl⟩)
  | copy source targets =>
    have hrefs : (Instr.copy source targets).refs = source :: targets := by
      simp [Instr.refs, Instr.operands, Function.comp_def]
    refine .inr (.inr ⟨rfl, .copy, by rw [hrefs]; rfl, fun h => ?_⟩)
    obtain ⟨target, rest, rfl⟩ := List.exists_cons_of_ne_nil h.form
    rw [hrefs]
    rfl

theorem Mnemonic.word_spec (m : Mnemonic) :
    IsWord m.word ∧ m.word.toList ≠ "#define".toList ∧ m.word.toList.head? ≠ some '#' := by
  cases m <;> simp [IsWord, Mnemonic.word] <;> decide

theorem isWord_words {m : Mnemonic} {refs : List Ref} (h : ∀ ref ∈ refs, ref.Written) :
    ∀ word ∈ m.word :: refs.map Ref.text, IsWord word := by
  rw [List.forall_mem_cons, List.forall_mem_map]
  exact ⟨m.word_spec.1, fun ref hmem => (h ref hmem).isWord⟩

theorem isWord_define_word : IsWord "#define" := by
  have hall : "#define".toList.all (fun c => !isBlank c) = true := by decide
  refine ⟨by decide, fun c hc => ?_⟩
  simpa using List.all_eq_true.1 hall c hc

theorem isWord_define {name : String} {value : Ref} (h : (Instr.define name value).Written) :
    ∀ word ∈ ["#define", name, value.text], IsWord word := by
  simp only [List.forall_mem_cons]
  exact ⟨isWord_define_word, isWord_of_isName h.form, (h.refs _ List.mem_cons_self).isWord,
    by simp⟩

theorem not_lineFeed_mem_line {instr : Instr Ref} (h : instr.Written) :
    '\n' ∉ instr.line.toList := by
  refine not_lineFeed_mem_intercalate (by decide) ?_
  obtain ⟨name, value, rfl⟩ | ⟨text, rfl⟩ | ⟨-, m, hwords, -⟩ := instr.forms
  · intro word hmem
    exact (isWord_define h word hmem).not_lineFeed_mem
  · simp only [Instr.words, List.forall_mem_cons]
    exact ⟨by decide, h.form, by simp⟩
  · rw [hwords]
    intro word hmem
    exact (isWord_words h.refs word hmem).not_lineFeed_mem

theorem readLine_comment (text : String) :
    readLine (Instr.comment text : Instr Ref).line = .ok none := by
  have hline : (Instr.comment text : Instr Ref).line.toList = ['#'] ++ ' ' :: text.toList := by
    simp [Instr.line, Instr.words]
  have hsign : isBlank '#' = false := by decide
  rw [readLine, hline, words_append_blank (by simp) (List.forall_mem_singleton.2 hsign)]
  rfl

theorem readLine_define {name : String} {value : Ref} (h : (Instr.define name value).Written) :
    readLine (Instr.define name value).line =
      (readRef value.text.toList).map fun ref => some (.define name ref) := by
  have hname : isName name.toList = true := h.form
  rw [readLine, Instr.line, Instr.words, words_intercalate (isWord_define h)]
  simp only [List.map_cons, List.map_nil, if_pos, readDefine, hname, String.ofList_toList]
  cases readRef value.text.toList <;> rfl

theorem readLine_mnemonic {m : Mnemonic} {refs : List Ref} (h : ∀ ref ∈ refs, ref.Written) :
    readLine (" ".intercalate (m.word :: refs.map Ref.text)) =
      (refs.mapM fun ref => readRef ref.text.toList) >>= fun refs => (m.apply refs).map some := by
  obtain ⟨-, hdefine, hsign⟩ := m.word_spec
  rw [readLine, words_intercalate (isWord_words h), List.map_cons, List.map_map]
  simp only [if_neg hdefine, if_neg hsign, String.ofList_toList, Mnemonic.ofWord?_word]
  rw [List.mapM_map]
  show (refs.mapM fun ref => readRef ref.text.toList) >>= _ = _
  cases (refs.mapM fun ref => readRef ref.text.toList) with
  | error fault => rfl
  | ok results =>
    show (m.apply results >>= fun instr => pure (some instr)) = (m.apply results).map some
    cases m.apply results <;> rfl

/-- An instruction is read from its line, a comment apart. -/
theorem readLine_line {instr : Instr Ref} (h : instr.Written) (hshort : instr.Short) :
    readLine instr.line = .ok (if instr.isComment then none else some instr) := by
  obtain ⟨name, value, rfl⟩ | ⟨text, rfl⟩ | ⟨hcomment, m, hwords, happly⟩ := instr.forms
  · rw [readLine_define h, readRef_text (h.refs _ List.mem_cons_self)
      (hshort _ List.mem_cons_self)]
    rfl
  · exact readLine_comment text
  · have hrefs : instr.refs.mapM (fun ref => readRef ref.text.toList) =
        .ok (instr.refs.map id) :=
      mapM_eq_ok fun ref hmem => readRef_text (h.refs ref hmem) (hshort ref hmem)
    rw [Instr.line, hwords, readLine_mnemonic h.refs, hrefs, List.map_id, hcomment]
    exact congrArg (Except.map some) (happly h)

theorem short_of_readLine {instr : Instr Ref} {result : Option (Instr Ref)} (h : instr.Written)
    (hread : readLine instr.line = .ok result) : instr.Short := by
  obtain ⟨name, value, rfl⟩ | ⟨text, rfl⟩ | ⟨-, m, hwords, -⟩ := instr.forms
  · rw [readLine_define h] at hread
    obtain ⟨ref, href, -⟩ := map_eq_ok.1 hread
    exact List.forall_mem_singleton.2 (short_of_readRef (h.refs _ List.mem_cons_self) href)
  · intro _ hmem
    exact absurd hmem List.not_mem_nil
  · rw [Instr.line, hwords, readLine_mnemonic h.refs] at hread
    obtain ⟨refs, hrefs, -⟩ := bind_eq_ok.1 hread
    intro ref hmem
    obtain ⟨result, hresult⟩ := forall_of_mapM_eq_ok hrefs ref hmem
    exact short_of_readRef (h.refs ref hmem) hresult

/-! ## Texts -/

theorem toList_render_cons (instr : Instr Ref) (rest : List (Instr Ref)) :
    (render (instr :: rest)).toList = instr.line.toList ++ '\n' :: (render rest).toList := by
  simp [render, String.join_cons]

theorem lines_render {instrs : List (Instr Ref)} (h : ∀ instr ∈ instrs, instr.Written) :
    lines (render instrs) = instrs.map Instr.line ++ [""] := by
  induction instrs with
  | nil => rfl
  | cons instr rest ih =>
    rw [List.forall_mem_cons] at h
    rw [lines, toList_render_cons,
      List.splitOn_append_cons_self_of_not_mem (not_lineFeed_mem_line h.1), List.map_cons,
      String.ofList_toList, ← lines, ih h.2]
    rfl

theorem readLines_lines {instrs : List (Instr Ref)} (h : ∀ instr ∈ instrs, instr.Written)
    (hshort : ∀ instr ∈ instrs, instr.Short) (line : Nat) :
    readLines line (instrs.map Instr.line ++ [""]) =
      .ok (((instrs.zipIdx line).map fun (instr, line) => (line, instr)).filter
        fun entry => !entry.2.isComment) := by
  induction instrs generalizing line with
  | nil => rfl
  | cons instr rest ih =>
    rw [List.forall_mem_cons] at h hshort
    rw [List.map_cons, List.cons_append, readLines, readLine_line h.1 hshort.1, List.zipIdx_cons,
      List.map_cons]
    cases hcomment : instr.isComment with
    | true =>
      rw [List.filter_cons_of_neg (by simp [hcomment])]
      exact ih h.2 hshort.2 (line + 1)
    | false =>
      rw [List.filter_cons_of_pos (by simp [hcomment])]
      simp only [Bool.false_eq_true, if_false, ih h.2 hshort.2 (line + 1)]
      rfl

theorem readLine_of_readLines {texts : List String} {line : Nat} {program : Numbered}
    (h : readLines line texts = .ok program) :
    ∀ text ∈ texts, ∃ result, readLine text = .ok result := by
  induction texts generalizing line program with
  | nil => simp
  | cons text rest ih =>
    rw [readLines] at h
    split at h
    · simp at h
    · next hread => exact List.forall_mem_cons.2 ⟨⟨_, hread⟩, ih h⟩
    · next instr hread =>
      obtain ⟨more, hmore, -⟩ := bind_eq_ok.1 h
      exact List.forall_mem_cons.2 ⟨⟨_, hread⟩, ih hmore⟩

/-- Instructions are read from their text, comments apart, each with its place as its line. -/
theorem readProgram_render {instrs : List (Instr Ref)} (h : ∀ instr ∈ instrs, instr.Written)
    (hshort : ∀ instr ∈ instrs, instr.Short) :
    readProgram (render instrs) =
      .ok ((numbered instrs).filter fun entry => !entry.2.isComment) := by
  rw [readProgram, lines_render h]
  exact readLines_lines h hshort 1

/-- A text is not read when one of its numbers is too long. -/
theorem short_of_readProgram {instrs : List (Instr Ref)} {program : Numbered}
    (h : ∀ instr ∈ instrs, instr.Written) (hread : readProgram (render instrs) = .ok program) :
    ∀ instr ∈ instrs, instr.Short := by
  rw [readProgram, lines_render h] at hread
  intro instr hmem
  obtain ⟨result, hresult⟩ := readLine_of_readLines hread instr.line
    (List.mem_append_left _ (List.mem_map_of_mem hmem))
  exact short_of_readLine (h instr hmem) hresult

end TapeCompiler.Asm
