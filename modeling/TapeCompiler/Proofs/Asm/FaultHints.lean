import TapeCompiler.Proofs.Asm.FaultWords
import TapeCompiler.Proofs.Diagnostic.Phrase
/-!
# Hints of faults

The phrases of the hints are in the fixed words of the messages that they are for, and in no others.
A message that quotes the phrase of another hint, or of any hint where none is due, gets that hint
all the same. For each fault it is said which words do that (`Fault.Misleading`); with all others the
hint is the one that is due (`Fault.OfText.hinted`).
-/
namespace TapeCompiler.Asm

open TapeCompiler.Text

def mnemonicsHint : String := "Known mnemonics: #define add sub set rs ls loop end copy read write."

def definitionHint : String := "Define the name first with \"#define <name> <value>\"."

/-- The advice that helps with a fault. -/
def Fault.dueHint : Fault → Option String
  | unknownOperation _ => some mnemonicsHint
  | unresolvedValue _ _ | unresolvedOperand _ _ => some definitionHint
  | _ => none

/-- The words that a fault quotes hold the phrase of a hint that is not due. Only neighbours in the
line of an instruction can make up the phrase of two words. -/
def Fault.Misleading : Fault → Prop
  | unresolvedValue _ instr | unresolvedOperand _ instr =>
    ∃ word next, [word, next] <:+: instr.words ∧ "unknown".toList <:+ lowered word.toList ∧
      "operation".toList <+: lowered next.toList
  | defineName text | invalidOperand text => Mentions "unresolved" text.toList
  | _ => False

/-- The advice that misleading words call up. -/
def Fault.strayHint : Fault → String
  | unresolvedValue _ _ | unresolvedOperand _ _ => mnemonicsHint
  | _ => definitionHint

/-- The operation is looked for before the name. -/
theorem hintFor_assemble (message : String) :
    hintFor .assemble message =
      if Mentions "unknown operation" message.toList then some mnemonicsHint
      else if Mentions "unresolved" message.toList then some definitionHint
      else none := by
  have hphrase : ∀ phrase : String, occursIn phrase.toList (message.toList.map lowerLetter) =
      decide (Mentions phrase message.toList) := by
    intro phrase
    rw [Bool.eq_iff_iff, occursIn_iff, decide_eq_true_iff]
    rfl
  simp only [hintFor, Topic.advice, List.find?_cons, List.find?_nil, hphrase]
  by_cases hoperation : Mentions "unknown operation" message.toList
  · simp [hoperation, mnemonicsHint]
  · by_cases hname : Mentions "unresolved" message.toList
    · simp [hoperation, hname, definitionHint]
    · simp [hoperation, hname]

/-! ## Texts without a phrase -/

/-- No hint has a phrase in the text. -/
def Silent (text : List Char) : Prop :=
  ¬Mentions "unknown operation" text ∧ ¬Mentions "unresolved" text

instance (text : List Char) : Decidable (Silent text) :=
  inferInstanceAs (Decidable (_ ∧ _))

section

variable {before after digits : List Char}

theorem Silent.hintFor_eq_none {message : String} (h : Silent message.toList) :
    hintFor .assemble message = none := by
  rw [hintFor_assemble, if_neg h.1, if_neg h.2]

theorem Silent.append_digits (hbefore : Silent before) (hdigits : isDigits digits = true)
    (hafter : Silent after) : Silent (before ++ (digits ++ after)) :=
  ⟨not_mentions_append_digits (by decide) hdigits hbefore.1 hafter.1,
    not_mentions_append_digits (by decide) hdigits hbefore.2 hafter.2⟩

theorem toList_toString_nat (n : Nat) : (toString n).toList = Nat.toDigits 10 n :=
  toList_toString_natCast n

theorem Silent.append_count (hbefore : Silent before) (n : Nat) :
    Silent (before ++ (toString n).toList) := by
  have hend : Silent [] := by decide
  rw [toList_toString_nat, ← List.append_nil (Nat.toDigits 10 n)]
  exact hbefore.append_digits (isDigits_toDigits n) hend

theorem Silent.append_mark (hbefore : Silent before) (hafter : Silent after) :
    Silent (before ++ '\'' :: after) := by
  rw [Silent, mentions_append_cons (by decide), mentions_append_cons (by decide), not_or, not_or]
  exact ⟨⟨hbefore.1, hafter.1⟩, hbefore.2, hafter.2⟩

/-- Both phrases begin with the same letter. -/
theorem Silent.cons {c : Char} (hc : 'u' ≠ lowerLetter c) (h : Silent after) :
    Silent (c :: after) := by
  have hhead : some 'u' ≠ some (lowerLetter c) := fun heq => hc (Option.some.inj heq)
  have hoperation : "unknown operation".toList.head? ≠ some (lowerLetter c) := hhead
  have hname : "unresolved".toList.head? ≠ some (lowerLetter c) := hhead
  rw [Silent, mentions_cons_of_ne hoperation, mentions_cons_of_ne hname]
  exact h

theorem silent_malformed {word detail : String} (hword : Silent word.toList)
    (hdetail : Silent detail.toList) : Silent (Fault.malformed word detail).toList := by
  have htext : (Fault.malformed word detail).toList = "Malformed ".toList ++
      '\'' :: (word.toList ++ '\'' :: ':' :: ' ' :: detail.toList) := by
    simp [Fault.malformed]
  have hbefore : Silent "Malformed ".toList := by decide
  rw [htext]
  exact hbefore.append_mark (hword.append_mark (.cons (by decide) (.cons (by decide) hdetail)))

theorem silent_word (mnemonic : Mnemonic) : Silent mnemonic.word.toList := by
  cases mnemonic <;> decide

theorem silent_malformed_count (mnemonic : Mnemonic) {detail : String} (h : Silent detail.toList)
    (count : Nat) : Silent (Fault.malformed mnemonic.word (detail ++ toString count)).toList := by
  refine silent_malformed (silent_word mnemonic) ?_
  rw [String.toList_append]
  exact h.append_count count

theorem silent_defineOperands (count : Nat) : Silent (Fault.defineOperands count).text.toList := by
  refine silent_malformed (by decide) ?_
  rw [String.toList_append, String.toList_append, List.append_assoc, toList_toString_nat]
  exact Silent.append_digits (by decide) (isDigits_toDigits count) (by decide)

theorem silent_operandTooLarge {word : String} (h : isDigits word.toList = true) :
    Silent (Fault.operandTooLarge word).text.toList := by
  have htake : isDigits (word.toList.take 20) = true := by
    obtain ⟨hne, hall⟩ := isDigits_spec h
    have htake : word.toList.take 20 ≠ [] := fun hnil =>
      (List.take_eq_nil_iff.1 hnil).elim (by decide) hne
    rw [isDigits, Bool.and_eq_true, List.all_eq_true, Bool.not_eq_true', List.isEmpty_eq_false_iff]
    exact ⟨htake, fun c hc => hall c (List.mem_of_mem_take hc)⟩
  have hbehind : Silent ("... (".toList ++ (Nat.toDigits 10 word.length ++ " digits)".toList)) :=
    Silent.append_digits (by decide) (isDigits_toDigits _) (by decide)
  show Silent ("Operand too large: " ++ String.ofList (word.toList.take 20) ++ "... ("
    ++ toString word.length ++ " digits)").toList
  simp only [String.toList_append, String.toList_ofList, List.append_assoc, toList_toString_nat]
  exact Silent.append_digits (by decide) htake hbehind

end

/-! ## Texts that quote -/

section

variable {word name : String} {instr : Instr Ref} {fault : Fault}

/-- A word that is quoted at the end of a text can only bring in the phrase of one word. -/
theorem hintFor_quote (before : String) (hbefore : Silent before.toList) (hword : IsWord word) :
    hintFor .assemble (before ++ quote word) =
      if Mentions "unresolved" word.toList then some definitionHint else none := by
  have htext : (before ++ quote word).toList = before.toList ++ (quotedChars word.toList ++ []) := by
    simp [quote]
  have hoperation : ¬Mentions "unknown operation" (before ++ quote word).toList := by
    rw [htext, mentions_append_quotedChars (by decide) (by decide)]
    rintro (h | h | h)
    · exact hbefore.1 h
    · exact not_mentions_quoted hword.blank_not_mem h
    · exact absurd h (by decide)
  have hname : Mentions "unresolved" (before ++ quote word).toList ↔
      Mentions "unresolved" word.toList := by
    have hempty : ¬Mentions "unresolved" [] := by decide
    rw [htext, mentions_append_quotedChars (by decide) (by decide),
      mentions_unresolved_quoted_iff (quoteMark_eq _), or_iff_right hbefore.2, or_iff_left hempty]
  rw [hintFor_assemble, if_neg hoperation, if_congr hname rfl rfl]

/-- A text on a name in a line has the phrase of one word itself; the line can bring in the other. -/
theorem hintFor_nameInLine (before : String)
    (hoperation : ¬Mentions "unknown operation" before.toList)
    (hbefore : Mentions "unresolved" before.toList) (hname : IsWord name) (line : String) :
    hintFor .assemble (before ++ quote name ++ " in '" ++ line ++ "'") =
      if Mentions "unknown operation" line.toList then some mnemonicsHint
      else some definitionHint := by
  have htext : (before ++ quote name ++ " in '" ++ line ++ "'").toList =
      before.toList ++ (quotedChars name.toList ++
        (" in ".toList ++ '\'' :: (line.toList ++ '\'' :: []))) := by
    simp [quote]
  have hline : Mentions "unknown operation" (before ++ quote name ++ " in '" ++ line ++ "'").toList ↔
      Mentions "unknown operation" line.toList := by
    have hbetween : ¬Mentions "unknown operation" " in ".toList := by decide
    have hempty : ¬Mentions "unknown operation" [] := by decide
    rw [htext, mentions_append_quotedChars (by decide) (by decide), or_iff_right hoperation,
      or_iff_right (not_mentions_quoted hname.blank_not_mem), mentions_append_cons (by decide),
      or_iff_right hbetween, mentions_append_cons (by decide), or_iff_left hempty]
  have hunresolved :
      Mentions "unresolved" (before ++ quote name ++ " in '" ++ line ++ "'").toList := by
    rw [htext]
    exact hbefore.append_right
  rw [hintFor_assemble, if_congr hline rfl (if_pos hunresolved)]

theorem mentions_line_iff (hwords : ∀ word ∈ instr.words, IsWord word) :
    Mentions "unknown operation" instr.line.toList ↔
      ∃ word next, [word, next] <:+: instr.words ∧ "unknown".toList <:+ lowered word.toList ∧
        "operation".toList <+: lowered next.toList :=
  mentions_intercalate_iff "unknown" "operation" (by decide) (by decide)
    fun word hmem => (hwords word hmem).blank_not_mem

/-! ## The hint of a fault -/

/-- Misleading words call up the advice that is not due, and all others that which is. -/
structure Fault.Hinted (fault : Fault) : Prop where
  stray : fault.Misleading → hintFor .assemble fault.text = some fault.strayHint
  due : ¬fault.Misleading → hintFor .assemble fault.text = fault.dueHint

theorem Fault.Hinted.of_iff {mentioned : Prop} [Decidable mentioned]
    (h : hintFor .assemble fault.text = if mentioned then some fault.strayHint else fault.dueHint)
    (hiff : mentioned ↔ fault.Misleading) : fault.Hinted where
  stray hyes := h.trans (if_pos (hiff.2 hyes))
  due hno := h.trans (if_neg (hiff.not.2 hno))

theorem Fault.Hinted.of_silent (h : Silent fault.text.toList) (hmisleading : ¬fault.Misleading)
    (hdue : fault.dueHint = none) : fault.Hinted where
  stray hyes := absurd hyes hmisleading
  due _ := h.hintFor_eq_none.trans hdue.symm

theorem hintFor_unknownOperation (word : String) :
    hintFor .assemble (Fault.unknownOperation word).text = some mnemonicsHint := by
  have hphrase : Mentions "unknown operation" "Unknown operation: ".toList := by decide
  have htext : Mentions "unknown operation" (Fault.unknownOperation word).text.toList := by
    show Mentions _ ("Unknown operation: " ++ quote word).toList
    rw [String.toList_append]
    exact hphrase.append_right
  rw [hintFor_assemble, if_pos htext]

theorem hintFor_defineName (hword : IsWord word) :
    hintFor .assemble (Fault.defineName word).text =
      if Mentions "unresolved" word.toList then some definitionHint else none := by
  have htext : (Fault.defineName word).text =
      Fault.malformed "#define" "invalid name " ++ quote word := String.append_assoc.symm
  rw [htext]
  exact hintFor_quote _ (silent_malformed (by decide) (by decide)) hword

theorem Fault.OfText.hinted (h : fault.OfText) : fault.Hinted := by
  cases fault with
  | unknownOperation word => exact ⟨fun hno => absurd hno id, fun _ => hintFor_unknownOperation word⟩
  | unresolvedValue name instr =>
    exact .of_iff (hintFor_nameInLine "Unresolved value " (by decide) (by decide)
      (isWord_of_isName h.1) instr.line) (mentions_line_iff h.2)
  | unresolvedOperand name instr =>
    exact .of_iff (hintFor_nameInLine "Unresolved operand " (by decide) (by decide)
      (isWord_of_isName h.1) instr.line) (mentions_line_iff h.2)
  | defineName word => exact .of_iff (hintFor_defineName h) Iff.rfl
  | invalidOperand word =>
    exact .of_iff (hintFor_quote "Invalid operand: " (by decide) h) Iff.rfl
  | defineOperands count => exact .of_silent (silent_defineOperands count) id rfl
  | copyOperands => exact .of_silent (silent_malformed (silent_word .copy) (by decide)) id rfl
  | atMostOneOperand mnemonic count =>
    exact .of_silent (silent_malformed_count mnemonic (by decide) count) id rfl
  | oneOperand mnemonic count =>
    exact .of_silent (silent_malformed_count mnemonic (by decide) count) id rfl
  | twoOperands mnemonic count =>
    exact .of_silent (silent_malformed_count mnemonic (by decide) count) id rfl
  | operandTooLarge word => exact .of_silent (silent_operandTooLarge h) id rfl
  | negativeOperand => exact absurd h id
  | countTooLarge => exact .of_silent (by decide) id rfl

/-- Misleading words call up advice that is not due. -/
theorem Fault.Misleading.strayHint_ne (h : fault.Misleading) :
    some fault.strayHint ≠ fault.dueHint := by
  have hne : mnemonicsHint ≠ definitionHint := by decide
  cases fault with
  | unresolvedValue | unresolvedOperand => exact fun heq => hne (Option.some.inj heq)
  | defineName | invalidOperand => exact Option.some_ne_none _
  | _ => exact absurd h id

theorem Fault.Hinted.hintFor_eq_due_iff (h : fault.Hinted) :
    hintFor .assemble fault.text = fault.dueHint ↔ ¬fault.Misleading :=
  ⟨fun heq hyes => hyes.strayHint_ne ((h.stray hyes).symm.trans heq), h.due⟩

end

end TapeCompiler.Asm
