import TapeCompiler.Proofs.Asm.Readable
import TapeCompiler.Proofs.Text.Lines
import TapeCompiler.Proofs.Text.Quoting
/-!
# Words of faults

A fault of a text quotes words of the text and nothing else: a word that cannot be read, or the words
of an instruction that was read, with some of its names replaced by numbers (`ofText_of_assemble`).
So no blank and no line feed gets into a message from the text, and no operand is negative.
-/
namespace TapeCompiler.Asm

open TapeCompiler.Text

/-- The faults that reading may find, with the words that they quote. -/
def Fault.OfReading : Fault → Prop
  | unknownOperation word | defineName word | invalidOperand word => IsWord word
  | operandTooLarge word => isDigits word.toList = true
  | defineOperands _ | copyOperands | atMostOneOperand _ _ | oneOperand _ _ | twoOperands _ _ => True
  | unresolvedValue _ _ | unresolvedOperand _ _ | negativeOperand _ _ | countTooLarge => False

/-- The faults that a text may have: besides those of reading, a name in a row of words that is not
defined, or too large a count. -/
def Fault.OfText : Fault → Prop
  | unresolvedValue name instr | unresolvedOperand name instr =>
    isName name.toList = true ∧ ∀ word ∈ instr.words, IsWord word
  | countTooLarge => True
  | fault => fault.OfReading

section

variable {fault : Fault} {instr : Instr Ref} {text : String} {word : List Char}
  {ws : List (List Char)}

theorem Fault.OfReading.ofText (h : fault.OfReading) : fault.OfText := by
  cases fault with
  | unresolvedValue | unresolvedOperand => exact absurd h id
  | countTooLarge => trivial
  | _ => exact h

/-! ## Reading -/

theorem IsWord.blank_not_mem {word : String} (h : IsWord word) : ' ' ∉ word.toList := fun hmem =>
  absurd (h.2 ' ' hmem) (by decide)

theorem isWord_of_mem_words (h : word ∈ words text.toList) : IsWord (String.ofList word) := by
  rw [IsWord, String.toList_ofList]
  exact word_spec h

theorem ofReading_of_readRef (hword : IsWord (String.ofList word))
    (h : readRef word = .error fault) : fault.OfReading := by
  unfold readRef at h
  split at h
  · next hdigits =>
    split at h
    · cases h
    · cases h
      rwa [← String.toList_ofList (l := word)] at hdigits
  split at h
  · cases h
  · cases h
    exact hword

theorem ofReading_of_apply {mnemonic : Mnemonic} {refs : List Ref}
    (h : mnemonic.apply refs = .error fault) : fault.OfReading := by
  unfold Mnemonic.apply at h
  split at h <;> cases h <;> trivial

theorem ofReading_of_readDefine (hws : ∀ word ∈ ws, IsWord (String.ofList word))
    (h : readDefine ws = .error fault) : fault.OfReading := by
  unfold readDefine at h
  split at h
  · rw [List.forall_mem_cons] at hws
    split at h
    · rcases bind_eq_error.1 h with h | ⟨_, -, h⟩
      · exact ofReading_of_readRef (hws.2 _ List.mem_cons_self) h
      · cases h
    · cases h
      exact hws.1
  · cases h
    trivial

theorem ofReading_of_readLine (h : readLine text = .error fault) : fault.OfReading := by
  have hwords : ∀ word ∈ words text.toList, IsWord (String.ofList word) := fun _ =>
    isWord_of_mem_words
  unfold readLine at h
  split at h
  · cases h
  next head operands heq =>
  rw [heq, List.forall_mem_cons] at hwords
  split at h
  · rcases bind_eq_error.1 h with h | ⟨_, -, h⟩
    · exact ofReading_of_readDefine hwords.2 h
    · cases h
  split at h
  · cases h
  split at h
  · cases h
    exact hwords.1
  rcases bind_eq_error.1 h with h | ⟨_, -, h⟩
  · obtain ⟨word, hmem, hword⟩ := exists_of_mapM_eq_error h
    exact ofReading_of_readRef (hwords.2 word hmem) hword
  · rcases bind_eq_error.1 h with h | ⟨_, -, h⟩
    · exact ofReading_of_apply h
    · cases h

/-! ## Expanding and encoding -/

theorem Instr.Readable.isWord (h : instr.Readable) : ∀ word ∈ instr.words, IsWord word := by
  obtain ⟨name, value, rfl⟩ | ⟨text, rfl⟩ | ⟨-, m, hwords, -⟩ := instr.forms
  · exact isWord_define h.written
  · cases h.not_comment
  · rw [hwords]
    exact isWord_words h.written.refs

theorem Instr.Readable.ofText_of_name {s : String} (h : instr.Readable)
    (hmem : Ref.name s ∈ instr.refs) :
    isName s.toList = true ∧ ∀ word ∈ instr.words, IsWord word :=
  ⟨h.written.refs _ hmem, h.isWord⟩

theorem ofText_of_encodeRef (hread : instr.Readable) (h : encodeRef instr = .error fault) :
    fault.OfText := by
  have hoffsets : instr.offsets = .error fault := by
    unfold encodeRef at h
    split at h
    · cases h
    · cases h
    · exact map_eq_error.1 h
  rcases bind_eq_error.1 hoffsets with h | ⟨_, -, h⟩
  · obtain ⟨operand, hmem, hoperand⟩ := exists_of_traverse_eq_error h
    have href : operand.2 ∈ instr.refs := List.mem_map_of_mem hmem
    generalize operand.2 = ref at hoperand href
    cases ref with
    | name s =>
      cases hoperand
      exact hread.ofText_of_name href
    | number n =>
      have hnatural : 0 ≤ n := hread.written.refs _ href
      cases (if_neg (Int.not_lt.2 hnatural)).symm.trans hoperand
  · split at h
    · cases h
    · cases h
      trivial

/-- Whatever is wrong with a text, its words are all that the fault quotes. -/
theorem ofText_of_assemble {source : String} {e : Error} (h : assemble source = .error e) :
    e.fault.OfText := by
  rcases bind_eq_error.1 h with h | ⟨program, hprogram, h⟩
  · obtain ⟨_, text, -, -, hread⟩ := standsOn_of_readLines_error h
    exact (ofReading_of_readLine hread).ofText
  have hreadable := readable_of_readProgram hprogram
  rcases bind_eq_error.1 h with h | ⟨expanded, hexpanded, h⟩
  · obtain ⟨line, name, s, hmem, rfl⟩ := unresolved_of_expandFrom h
    exact (hreadable _ hmem).ofText_of_name List.mem_cons_self
  · obtain ⟨entry, hmem, -, hfault⟩ := fault_of_encodeAll h
    have hexpansion := expansion_of_expandFrom hexpanded
    exact ofText_of_encodeRef (hexpansion.readable (by simp) hreadable entry hmem) hfault

/-! ## Texts -/

theorem not_lineFeed_mem_append {a b : String} (ha : '\n' ∉ a.toList) (hb : '\n' ∉ b.toList) :
    '\n' ∉ (a ++ b).toList := by
  rw [String.toList_append, List.mem_append, not_or]
  exact ⟨ha, hb⟩

theorem not_lineFeed_mem_malformed {word detail : String} (hword : '\n' ∉ word.toList)
    (hdetail : '\n' ∉ detail.toList) : '\n' ∉ (Fault.malformed word detail).toList :=
  not_lineFeed_mem_append (not_lineFeed_mem_append (not_lineFeed_mem_append (by decide) hword)
    (by decide)) hdetail

theorem not_lineFeed_mem_malformed_count (mnemonic : Mnemonic) {detail : String}
    (hdetail : '\n' ∉ detail.toList) (count : Nat) :
    '\n' ∉ (Fault.malformed mnemonic.word (detail ++ toString count)).toList :=
  not_lineFeed_mem_malformed mnemonic.word_spec.1.not_lineFeed_mem
    (not_lineFeed_mem_append hdetail (not_lineFeed_mem_toString count))

theorem not_lineFeed_mem_quote (text : String) : '\n' ∉ (quote text).toList := by
  rw [quote, String.toList_ofList]
  exact not_lineFeed_mem_quotedChars _

theorem not_lineFeed_mem_nameInLine {before : String} (hbefore : '\n' ∉ before.toList)
    (name : String) (hwords : ∀ word ∈ instr.words, IsWord word) :
    '\n' ∉ (before ++ quote name ++ " in '" ++ instr.line ++ "'").toList := by
  have hline : '\n' ∉ instr.line.toList := not_lineFeed_mem_intercalate (by decide)
    fun word hmem => (hwords word hmem).not_lineFeed_mem
  exact not_lineFeed_mem_append (not_lineFeed_mem_append (not_lineFeed_mem_append
    (not_lineFeed_mem_append hbefore (not_lineFeed_mem_quote name)) (by decide)) hline) (by decide)

theorem not_lineFeed_mem_take {word : String} (h : isDigits word.toList = true) (n : Nat) :
    '\n' ∉ (String.ofList (word.toList.take n)).toList := by
  rw [String.toList_ofList]
  intro hmem
  have hdigit := (isDigits_spec h).2 '\n' (List.mem_of_mem_take hmem)
  simp at hdigit

/-- What a text is refused with is told on one line. -/
theorem Fault.OfText.not_lineFeed_mem (h : fault.OfText) : '\n' ∉ fault.text.toList := by
  cases fault with
  | unknownOperation word => exact not_lineFeed_mem_append (by decide) (not_lineFeed_mem_quote word)
  | defineOperands count =>
    exact not_lineFeed_mem_malformed (by decide) (not_lineFeed_mem_append
      (not_lineFeed_mem_append (by decide) (not_lineFeed_mem_toString count)) (by decide))
  | defineName word =>
    exact not_lineFeed_mem_malformed (by decide)
      (not_lineFeed_mem_append (by decide) (not_lineFeed_mem_quote word))
  | copyOperands => exact not_lineFeed_mem_malformed (by decide) (by decide)
  | atMostOneOperand mnemonic count =>
    exact not_lineFeed_mem_malformed_count mnemonic (by decide) count
  | oneOperand mnemonic count => exact not_lineFeed_mem_malformed_count mnemonic (by decide) count
  | twoOperands mnemonic count => exact not_lineFeed_mem_malformed_count mnemonic (by decide) count
  | invalidOperand word => exact not_lineFeed_mem_append (by decide) (not_lineFeed_mem_quote word)
  | operandTooLarge word =>
    exact not_lineFeed_mem_append (not_lineFeed_mem_append (not_lineFeed_mem_append
      (not_lineFeed_mem_append (by decide) (not_lineFeed_mem_take h 20)) (by decide))
      (not_lineFeed_mem_toString word.length)) (by decide)
  | unresolvedValue name instr => exact not_lineFeed_mem_nameInLine (by decide) name h.2
  | unresolvedOperand name instr => exact not_lineFeed_mem_nameInLine (by decide) name h.2
  | negativeOperand => exact absurd h id
  | countTooLarge => decide

end

end TapeCompiler.Asm
