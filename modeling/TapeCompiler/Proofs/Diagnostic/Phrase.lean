import Mathlib.Data.List.Infix
import TapeCompiler.Diagnostic.Hint
import TapeCompiler.Proofs.Text.Characters
import TapeCompiler.Proofs.Text.Quoting
/-!
# Phrases in messages

A message is put together from fixed words and from pieces of the text that it is about. Where a
character that the phrase lacks stands between two pieces, the phrase is in one of them
(`mentions_append_cons`). A phrase of two words is in a row of words if two neighbours complete it
(`mentions_intercalate_iff`), and quoting neither hides a word nor makes one
(`mentions_unresolved_quoted_iff`).
-/
namespace TapeCompiler

open TapeCompiler.Text

/-- A text in lower case. -/
def lowered (text : List Char) : List Char := text.map lowerLetter

/-- A text holds a phrase, letter case aside. -/
def Mentions (phrase : String) (text : List Char) : Prop := phrase.toList <:+: lowered text

instance (phrase : String) (text : List Char) : Decidable (Mentions phrase text) :=
  decidable_of_iff (occursIn phrase.toList (lowered text) = true) occursIn_iff

/-! ## Lower case -/

theorem toNat_lowerLetter {c : Char} (h : c ≠ '\u212a') :
    (lowerLetter c).toNat = if 65 ≤ c.toNat ∧ c.toNat ≤ 90 then c.toNat + 32 else c.toNat := by
  rw [lowerLetter, if_neg h]
  unfold Char.toLower
  have hupper : (c.val ≥ 'A'.val ∧ c.val ≤ 'Z'.val) ↔ 65 ≤ c.toNat ∧ c.toNat ≤ 90 := Iff.rfl
  by_cases hc : 65 ≤ c.toNat ∧ c.toNat ≤ 90
  · rw [dif_pos (hupper.2 hc), if_pos hc]
    show (c.val + 32).toNat = c.val.toNat + 32
    have hle : c.val.toNat ≤ 90 := hc.2
    rw [UInt32.toNat_add, Nat.mod_eq_of_lt]
    · rfl
    · show c.val.toNat + 32 < 2 ^ 32
      omega
  · rw [dif_neg (hupper.not.2 hc), if_neg hc]

/-- What is below the small letters and no capital stays as it is, and nothing else becomes it. -/
theorem lowerLetter_eq_iff {c d : Char} (hlow : d.toNat < 97)
    (hcapital : d.toNat < 65 ∨ 90 < d.toNat) : lowerLetter c = d ↔ c = d := by
  by_cases hc : c = '\u212a'
  · subst hc
    constructor
    · rintro rfl
      exact absurd hlow (by decide)
    · rintro rfl
      exact absurd hlow (by decide)
  · rw [← Char.toNat_inj, ← Char.toNat_inj, toNat_lowerLetter hc]
    split <;> omega

theorem lowerLetter_of_isDigit {c : Char} (h : c.isDigit = true) : lowerLetter c = c := by
  have hrange : 48 ≤ c.toNat ∧ c.toNat ≤ 57 := Char.isDigit_iff_toNat.1 h
  exact (lowerLetter_eq_iff (by omega) (by omega)).2 rfl

theorem blank_not_mem_lowered {text : List Char} (h : ' ' ∉ text) : ' ' ∉ lowered text := by
  rw [lowered, List.mem_map]
  rintro ⟨c, hc, hlower⟩
  obtain rfl := (lowerLetter_eq_iff (by decide) (by decide)).1 hlower
  exact h hc

/-! ## Pieces -/

theorem infix_append_cons_iff {α : Type} {phrase before after : List α} {c : α} (hc : c ∉ phrase) :
    phrase <:+: before ++ c :: after ↔ phrase <:+: before ∨ phrase <:+: after := by
  rw [List.infix_append_iff]
  constructor
  · rintro (h | h | ⟨first, second, rfl, hfirst, hsecond⟩)
    · exact .inl h
    · rcases List.infix_cons_iff.1 h with h | h
      · rcases List.prefix_cons_iff.1 h with rfl | ⟨_, rfl, -⟩
        · exact .inl List.nil_infix
        · exact absurd List.mem_cons_self hc
      · exact .inr h
    · rcases List.prefix_cons_iff.1 hsecond with rfl | ⟨_, rfl, -⟩
      · rw [List.append_nil]
        exact .inl hfirst.isInfix
      · exact absurd (List.mem_append_right _ List.mem_cons_self) hc
  · rintro (h | h)
    · exact .inl h
    · exact .inr (.inl (List.infix_cons_iff.2 (.inr h)))

section

variable {phrase : String} {before after block : List Char} {c : Char}

theorem mentions_append_cons (hc : lowerLetter c ∉ phrase.toList) :
    Mentions phrase (before ++ c :: after) ↔ Mentions phrase before ∨ Mentions phrase after := by
  rw [Mentions, lowered, List.map_append, List.map_cons, infix_append_cons_iff hc]
  rfl

theorem Mentions.append_right (h : Mentions phrase before) : Mentions phrase (before ++ after) := by
  rw [Mentions, lowered, List.map_append]
  exact h.trans (List.prefix_append _ _).isInfix

/-- Characters that the phrase lacks may stand between two pieces in any number. -/
theorem not_mentions_append_block (hne : block ≠ [])
    (hblock : ∀ c ∈ block, lowerLetter c ∉ phrase.toList) (hbefore : ¬Mentions phrase before)
    (hafter : ¬Mentions phrase after) : ¬Mentions phrase (before ++ (block ++ after)) := by
  induction block generalizing before with
  | nil => exact absurd rfl hne
  | cons c rest ih =>
    rw [List.forall_mem_cons] at hblock
    rw [List.cons_append, mentions_append_cons hblock.1, not_or]
    refine ⟨hbefore, ?_⟩
    cases rest with
    | nil => exact hafter
    | cons d rest =>
      have hnil : ¬Mentions phrase [] := fun h => hbefore (@Mentions.append_right phrase [] before h)
      exact ih (List.cons_ne_nil d rest) hblock.2 hnil

theorem not_mentions_append_digits (hphrase : phrase.toList.any Char.isDigit = false)
    (hblock : isDigits block = true) (hbefore : ¬Mentions phrase before)
    (hafter : ¬Mentions phrase after) : ¬Mentions phrase (before ++ (block ++ after)) := by
  obtain ⟨hne, hall⟩ := isDigits_spec hblock
  refine not_mentions_append_block hne (fun c hc hmem => ?_) hbefore hafter
  rw [lowerLetter_of_isDigit (hall c hc)] at hmem
  exact absurd (hall c hc) (List.any_eq_false.1 hphrase c hmem)

end

/-! ## Rows of words -/

section

variable {first second : List Char} {word next text : List Char} {ws : List (List Char)}

/-- What has no blank in it begins a text before a blank as it begins the word there. -/
theorem prefix_append_blank_iff (hsecond : ' ' ∉ second) :
    second <+: next ++ ' ' :: text ↔ second <+: next := by
  constructor
  · intro h
    rcases List.prefix_or_prefix_of_prefix h (List.prefix_append next (' ' :: text)) with h' | h'
    · exact h'
    · obtain ⟨rest, rfl⟩ := h'
      rcases List.prefix_cons_iff.1 ((List.prefix_append_right_inj next).1 h) with rfl | ⟨_, rfl, -⟩
      · rw [List.append_nil]
      · exact absurd (List.mem_append_right _ List.mem_cons_self) hsecond
  · exact fun h => h.trans (List.prefix_append _ _)

/-- Two words with a blank between them stand around the first blank of a text, or behind it. -/
theorem infix_append_blank_iff (hword : ' ' ∉ word) (hfirst : ' ' ∉ first) :
    first ++ ' ' :: second <:+: word ++ ' ' :: text ↔
      first <:+ word ∧ second <+: text ∨ first ++ ' ' :: second <:+: text := by
  constructor
  · rw [List.infix_append_iff]
    rintro (h | h | ⟨left, right, heq, hleft, hright⟩)
    · exact absurd (h.subset (List.mem_append_right _ List.mem_cons_self)) hword
    · rcases List.infix_cons_iff.1 h with h | h
      · cases first with
        | nil => exact .inl ⟨List.nil_suffix, (List.cons_prefix_cons.1 h).2⟩
        | cons c rest =>
          rw [List.cons_append, List.cons_prefix_cons] at h
          exact absurd (h.1 ▸ List.mem_cons_self) hfirst
      · exact .inr h
    · have hblank : ' ' ∉ left := fun hmem => hword (hleft.subset hmem)
      rcases List.prefix_cons_iff.1 hright with rfl | ⟨behind, rfl, hbehind⟩
      · rw [List.append_nil] at heq
        exact absurd (heq ▸ List.mem_append_right _ List.mem_cons_self) hblank
      · have hpieces := congrArg (List.splitOn ' ') heq
        rw [List.splitOn_append_cons_self_of_not_mem hfirst,
          List.splitOn_append_cons_self_of_not_mem hblank] at hpieces
        obtain rfl : first = left := (List.cons.inj hpieces).1
        obtain rfl : second = behind := (List.cons.inj (List.append_cancel_left heq)).2
        exact .inl ⟨hleft, hbehind⟩
  · rintro (⟨⟨left, rfl⟩, ⟨right, rfl⟩⟩ | h)
    · exact ⟨left, right, by simp⟩
    · rw [show word ++ ' ' :: text = (word ++ [' ']) ++ text by simp]
      exact h.trans (List.suffix_append _ _).isInfix

/-- Two neighbours complete the two words. -/
theorem infix_intercalate_iff (hfirst : ' ' ∉ first) (hsecond : ' ' ∉ second)
    (hws : ∀ word ∈ ws, ' ' ∉ word) :
    first ++ ' ' :: second <:+: [' '].intercalate ws ↔
      ∃ word next, [word, next] <:+: ws ∧ first <:+ word ∧ second <+: next := by
  have hblank : ' ' ∈ first ++ ' ' :: second := List.mem_append_right _ List.mem_cons_self
  induction ws with
  | nil =>
    constructor
    · exact fun h => absurd (h.subset hblank) List.not_mem_nil
    · rintro ⟨word, next, h, -⟩
      cases List.infix_nil.1 h
  | cons word rest ih =>
    rw [List.forall_mem_cons] at hws
    cases rest with
    | nil =>
      rw [List.intercalate_singleton]
      constructor
      · exact fun h => absurd (h.subset hblank) hws.1
      · rintro ⟨_, _, h, -⟩
        exact absurd h.length_le (by simp)
    | cons next rest =>
      have hnext : second <+: [' '].intercalate (next :: rest) ↔ second <+: next := by
        cases rest with
        | nil => rw [List.intercalate_singleton]
        | cons other rest =>
          rw [List.intercalate_cons_cons, List.append_assoc]
          exact prefix_append_blank_iff hsecond
      rw [List.intercalate_cons_cons, List.append_assoc, List.singleton_append,
        infix_append_blank_iff hws.1 hfirst, hnext]
      refine (or_congr_right (ih hws.2)).trans ?_
      simp only [List.infix_cons_iff (a := word), List.cons_prefix_cons, List.nil_prefix, and_true]
      constructor
      · rintro (h | ⟨other, another, hmem, h⟩)
        · exact ⟨word, next, .inl ⟨rfl, rfl⟩, h⟩
        · exact ⟨other, another, .inr hmem, h⟩
      · rintro ⟨other, another, ⟨rfl, rfl⟩ | hmem, h⟩
        · exact .inl h
        · exact .inr ⟨other, another, hmem, h⟩

theorem lowered_intercalate (ws : List (List Char)) :
    lowered ([' '].intercalate ws) = [' '].intercalate (ws.map lowered) := by
  induction ws with
  | nil => rfl
  | cons word rest ih =>
    cases rest with
    | nil => simp
    | cons next rest =>
      rw [List.intercalate_cons_cons, List.map_cons, List.map_cons, List.intercalate_cons_cons,
        ← List.map_cons, ← ih]
      simp only [lowered, List.map_append]
      rfl

/-- A phrase of two words is in a row of words where one word ends with the first of them and the
next begins with the second. -/
theorem mentions_intercalate_iff (first second : String) {ws : List String}
    (hfirst : ' ' ∉ first.toList) (hsecond : ' ' ∉ second.toList)
    (hws : ∀ word ∈ ws, ' ' ∉ word.toList) :
    Mentions (first ++ " " ++ second) (" ".intercalate ws).toList ↔
      ∃ word next, [word, next] <:+: ws ∧ first.toList <:+ lowered word.toList ∧
        second.toList <+: lowered next.toList := by
  have hphrase : (first ++ " " ++ second).toList = first.toList ++ ' ' :: second.toList := by
    simp
  have hlowered : ∀ word ∈ (ws.map String.toList).map lowered, ' ' ∉ word := by
    rw [List.forall_mem_map, List.forall_mem_map]
    exact fun word hmem => blank_not_mem_lowered (hws word hmem)
  have hrow : (" ".intercalate ws).toList = [' '].intercalate (ws.map String.toList) :=
    String.toList_intercalate
  rw [Mentions, hphrase, hrow, lowered_intercalate, infix_intercalate_iff hfirst hsecond hlowered,
    List.map_map]
  constructor
  · rintro ⟨_, _, hneighbours, h⟩
    obtain ⟨neighbours, hpiece, heq⟩ := List.infix_map_iff.1 hneighbours
    obtain ⟨word, next, rfl⟩ : ∃ word next, neighbours = [word, next] :=
      List.length_eq_two.1 (by simpa using congrArg List.length heq.symm)
    cases heq
    exact ⟨word, next, hpiece, h⟩
  · rintro ⟨word, next, hpiece, h⟩
    exact ⟨_, _, hpiece.map (lowered ∘ String.toList), h⟩

end

/-! ## Quoted words -/

section

variable {mark c : Char} {phrase : String} {before after word p digits : List Char}

/-- A character that does not begin the phrase may be left out in front of a text. -/
theorem mentions_cons_of_ne (h : phrase.toList.head? ≠ some (lowerLetter c)) :
    Mentions phrase (c :: after) ↔ Mentions phrase after := by
  rw [Mentions, lowered, List.map_cons, List.infix_cons_iff, List.prefix_cons_iff]
  constructor
  · rintro ((hnil | ⟨_, heq, -⟩) | hpiece)
    · rw [Mentions, hnil]
      exact List.nil_infix
    · rw [heq] at h
      exact absurd rfl h
    · exact hpiece
  · exact .inr

theorem mentions_append_of_ne (h : ∀ c ∈ digits, phrase.toList.head? ≠ some (lowerLetter c)) :
    Mentions phrase (digits ++ after) ↔ Mentions phrase after := by
  induction digits with
  | nil => rfl
  | cons d rest ih =>
    rw [List.forall_mem_cons] at h
    rw [List.cons_append, mentions_cons_of_ne h.1, ih h.2]

/-- What has no backslash in it begins a quoted word only as it begins the word. -/
theorem prefix_of_prefix_quoted (mark : Char) (hp : '\\' ∉ p)
    (h : p <+: lowered (word.flatMap (quotedChar mark))) : p <+: lowered word := by
  have hescaped : ∀ {q rest : List Char}, '\\' ∉ q → q <+: lowered ('\\' :: rest) → q = [] := by
    intro q rest hq h
    rcases List.prefix_cons_iff.1 h with rfl | ⟨_, rfl, -⟩
    · rfl
    · exact absurd List.mem_cons_self hq
  induction word generalizing p with
  | nil => exact h
  | cons c rest ih =>
    rw [List.flatMap_cons] at h
    have hform := quotedForm_quotedChar mark c
    generalize quotedChar mark c = form at h hform
    cases hform with
    | itself =>
      rcases List.prefix_cons_iff.1 h with rfl | ⟨q, rfl, hq⟩
      · exact List.nil_prefix
      · rw [List.mem_cons, not_or] at hp
        exact List.cons_prefix_cons.2 ⟨rfl, ih hp.2 hq⟩
    | sign =>
      rw [hescaped hp h]
      exact List.nil_prefix
    | number =>
      rw [hescaped hp h]
      exact List.nil_prefix

/-- The letters of the word stand for themselves between quotes. -/
theorem quotedChar_of_lowerLetter_mem (hmark : mark = '\'' ∨ mark = '"')
    (h : lowerLetter c ∈ "unresolved".toList) : quotedChar mark c = [c] := by
  have hsmall : "unresolved".toList.all (fun d => 97 ≤ d.toNat ∧ d.toNat ≤ 122) = true := by decide
  have hrange := of_decide_eq_true (List.all_eq_true.1 hsmall _ h)
  have hkelvin : c ≠ '\u212a' := by
    rintro rfl
    exact absurd h (by decide)
  rw [toNat_lowerLetter hkelvin] at hrange
  have hc : 65 ≤ c.toNat ∧ c.toNat ≤ 90 ∨ 97 ≤ c.toNat ∧ c.toNat ≤ 122 := by
    split at hrange <;> omega
  have hsign : ∀ d : Char, d.toNat < 65 ∨ d.toNat = 92 → c ≠ d := by
    rintro d hd rfl
    omega
  refine quotedChar_eq_self (by omega) (by omega) (hsign mark ?_) (hsign '\\' (by decide))
  rcases hmark with rfl | rfl <;> decide

/-- An escape neither begins the word nor goes on with it. -/
theorem mentions_unresolved_escape_iff {form : List Char} (hmark : mark = '\'' ∨ mark = '"')
    (hform : QuotedForm mark c form) (hne : form ≠ [c]) :
    Mentions "unresolved" (form ++ after) ↔ Mentions "unresolved" after := by
  cases hform with
  | itself => exact absurd rfl hne
  | sign s hsign =>
    refine mentions_append_of_ne (List.forall_mem_cons.2 ⟨by decide, ?_⟩)
    rw [List.forall_mem_singleton]
    have hothers : [mark, '\\', 'n', 'r', 't'].all
        (fun d => "unresolved".toList.head? ≠ some (lowerLetter d)) = true := by
      rcases hmark with rfl | rfl <;> decide
    exact of_decide_eq_true (List.all_eq_true.1 hothers s hsign)
  | number width d digits hwidth hdigits =>
    have hall : hexDigits.all (fun digit => lowerLetter digit ≠ 'n' ∧
        "unresolved".toList.head? ≠ some (lowerLetter digit)) = true := by decide
    have hhex : ∀ digit ∈ hexDigits,
        lowerLetter digit ≠ 'n' ∧ "unresolved".toList.head? ≠ some (lowerLetter digit) :=
      fun digit hmem => of_decide_eq_true (List.all_eq_true.1 hall digit hmem)
    have hbehind : Mentions "unresolved" (d :: digits ++ after) ↔ Mentions "unresolved" after :=
      mentions_append_of_ne fun digit hmem => (hhex digit (hdigits digit hmem)).2
    rw [List.cons_append, mentions_cons_of_ne (by decide), List.cons_append, ← hbehind,
      Mentions, lowered, List.map_cons, List.infix_cons_iff, or_iff_right]
    · rfl
    · intro hprefix
      have hnext := (List.cons_prefix_cons.1 (List.cons_prefix_cons.1 hprefix).2).1
      exact (hhex d (hdigits d List.mem_cons_self)).1 hnext.symm

/-- Quoting neither hides the word nor makes it. -/
theorem mentions_unresolved_quoted_iff (hmark : mark = '\'' ∨ mark = '"') :
    Mentions "unresolved" (word.flatMap (quotedChar mark)) ↔ Mentions "unresolved" word := by
  constructor
  · intro h
    induction word with
    | nil => exact h
    | cons c rest ih =>
      rw [List.flatMap_cons] at h
      have hrest : Mentions "unresolved" rest → Mentions "unresolved" (c :: rest) := fun h =>
        List.infix_cons_iff.2 (.inr h)
      by_cases hself : quotedChar mark c = [c]
      · rcases List.infix_cons_iff.1 (hself ▸ h) with hprefix | hpiece
        · refine (prefix_of_prefix_quoted mark (by decide) ?_).isInfix
          rwa [List.flatMap_cons, hself]
        · exact hrest (ih hpiece)
      · rw [mentions_unresolved_escape_iff hmark (quotedForm_quotedChar mark c) hself] at h
        exact hrest (ih h)
  · intro h
    obtain ⟨piece, hpiece, heq⟩ := List.infix_map_iff.1 h
    have hquoted : piece.flatMap (quotedChar mark) = piece := by
      conv_rhs => rw [← List.flatMap_singleton' piece]
      refine List.flatMap_congr fun c hc => quotedChar_of_lowerLetter_mem hmark ?_
      rw [heq]
      exact List.mem_map_of_mem hc
    have hmentions := (hpiece.flatMap (quotedChar mark)).map lowerLetter
    rwa [hquoted, ← heq] at hmentions

/-- A word that is quoted does not make up a phrase of two. -/
theorem not_mentions_quoted (hword : ' ' ∉ word) :
    ¬Mentions "unknown operation" (word.flatMap (quotedChar (quoteMark word))) := by
  intro h
  have hblank := blank_not_mem_lowered (not_blank_mem_quoted (quoteMark_eq word) hword)
  exact hblank (h.subset (by decide))

/-- The marks cut a message into the text before them, the quoted word and the text behind. -/
theorem mentions_append_quotedChars (hsingle : '\'' ∉ phrase.toList) (hdouble : '"' ∉ phrase.toList) :
    Mentions phrase (before ++ (quotedChars word ++ after)) ↔ Mentions phrase before ∨
      Mentions phrase (word.flatMap (quotedChar (quoteMark word))) ∨ Mentions phrase after := by
  have hmark : lowerLetter (quoteMark word) ∉ phrase.toList := by
    rcases quoteMark_eq word with h | h <;> rw [h]
    · exact hsingle
    · exact hdouble
  rw [quotedChars, List.cons_append, mentions_append_cons hmark, List.append_assoc,
    List.singleton_append, mentions_append_cons hmark]

end

end TapeCompiler
