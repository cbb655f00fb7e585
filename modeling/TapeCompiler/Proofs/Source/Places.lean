import TapeCompiler.Proofs.Source.Outcome
import TapeCompiler.Proofs.Text.Lines
/-!
# Places in a text

The position of a place tells the line on which it is and how far from the beginning of the line
(`standsAt_placeBehind`). So the tokens of a text stand where their positions say
(`standsAt_of_mem_tokens`), and so does what is no token where the scan fails
(`standsAt_of_tokens_error`).
-/
namespace TapeCompiler

open TapeCompiler.Text

/-- The text has the line of the position, and `word` is in it from the column of the position on.
Without a word this may be the place behind the last character of the line. -/
def StandsAt (source : String) (p : Position) (word : String) : Prop :=
  ∃ line column : Nat, p = ⟨line, column⟩ ∧ 1 ≤ line ∧ 1 ≤ column ∧
    ∃ text, (lines source)[line - 1]? = some text ∧ column ≤ text.length + 1 ∧
      word.toList <+: text.toList.drop (column - 1)

/-- The one place comes earlier in a text than the other. -/
def Position.Before (p q : Position) : Prop :=
  p.line < q.line ∨ p.line = q.line ∧ p.column < q.column

theorem Position.Before.ne {p q : Position} (h : p.Before q) : p ≠ q := by
  rintro rfl
  rcases h with h | ⟨-, h⟩ <;> exact absurd h (Int.lt_irrefl _)

/-! ## Positions and lines -/

section

variable {before word rest : List Char}

/-- A text up to its last line, and the last line. -/
theorem exists_last_line (text : List Char) : ∃ earlier last, text = earlier ++ last ∧
    '\n' ∉ last ∧ (earlier = [] ∨ ∃ more, earlier = more ++ ['\n']) := by
  obtain ⟨line, tail, heq, hline, htail⟩ := Scan.exists_line text.reverse
  refine ⟨tail.reverse, line.reverse, ?_, by simpa using hline, ?_⟩
  · rw [← List.reverse_append, ← heq, List.reverse_reverse]
  · obtain rfl | ⟨next, rfl⟩ := htail
    · exact .inl rfl
    · exact .inr ⟨next.reverse, by simp⟩

theorem takeWhile_append_lineFeed {last : List Char} (h : '\n' ∉ last) (rest : List Char) :
    (last ++ rest).takeWhile (· != '\n') = last ++ rest.takeWhile (· != '\n') := by
  refine List.takeWhile_append_of_pos fun c hc => ?_
  rw [bne_iff_ne]
  rintro rfl
  exact h hc

/-- The line of a place: what is behind its last line feed, and what follows up to the next one. -/
theorem getElem?_splitOn_place (before rest : List Char) : ∃ last : List Char,
    ((before ++ rest).splitOn '\n')[before.count '\n']? =
      some (last ++ rest.takeWhile (· != '\n')) ∧
    (before.reverse.takeWhile (· != '\n')).length = last.length := by
  obtain ⟨earlier, last, rfl, hlast, hearlier⟩ := exists_last_line before
  have hcount : (earlier ++ last).count '\n' = earlier.count '\n' := by
    rw [List.count_append, List.count_eq_zero_of_not_mem hlast, Nat.add_zero]
  have hfirst : ((last ++ rest).splitOn '\n')[0]? = some (last ++ rest.takeWhile (· != '\n')) := by
    rw [← List.head?_eq_getElem?, head?_splitOn_lineFeed, takeWhile_append_lineFeed hlast]
  refine ⟨last, ?_, ?_⟩
  · rw [hcount, List.append_assoc]
    obtain rfl | ⟨more, rfl⟩ := hearlier
    · exact hfirst
    · rw [List.append_assoc, List.singleton_append, List.splitOn_append_cons_self,
        List.getElem?_append_right, length_splitOn_lineFeed, List.count_append]
      · rw [List.count_singleton_self, Nat.sub_self]
        exact hfirst
      · rw [length_splitOn_lineFeed, List.count_append, List.count_singleton_self]
  · have hreverse : (earlier ++ last).reverse.takeWhile (· != '\n') = last.reverse := by
      rw [List.reverse_append, takeWhile_append_lineFeed (by simpa using hlast)]
      obtain rfl | ⟨more, rfl⟩ := hearlier <;> simp
    rw [hreverse, List.length_reverse]

/-- The place moves on with every text: to a later line, or further along its line. -/
theorem before_placeBehind (hword : word ≠ []) :
    (placeBehind before).Before (placeBehind (before ++ word)) := by
  by_cases hline : '\n' ∈ word
  · have hcount := List.count_pos_iff.2 hline
    refine .inl ?_
    simp only [placeBehind, List.count_append]
    omega
  · have hlast : '\n' ∉ word.reverse := by rwa [List.mem_reverse]
    have hlength := List.length_pos_iff.2 hword
    refine .inr ⟨(Scan.line_placeBehind_append hline).symm, ?_⟩
    simp only [placeBehind, List.reverse_append, takeWhile_append_lineFeed hlast,
      List.length_append, List.length_reverse]
    omega

/-- A word stands at the position of its first character. -/
theorem standsAt_placeBehind {source : String} (hsource : source.toList = before ++ word ++ rest)
    (hword : '\n' ∉ word) : StandsAt source (placeBehind before) (String.ofList word) := by
  obtain ⟨last, hline, hlast⟩ := getElem?_splitOn_place before (word ++ rest)
  rw [← List.append_assoc, ← hsource, takeWhile_append_lineFeed hword] at hline
  refine ⟨1 + before.count '\n', 1 + last.length, ?_, Nat.le_add_right 1 _,
    Nat.le_add_right 1 _, String.ofList (last ++ (word ++ rest.takeWhile (· != '\n'))), ?_, ?_, ?_⟩
  · rw [placeBehind, hlast]
    rfl
  · rw [Nat.add_sub_cancel_left, lines, List.getElem?_map, hline]
    rfl
  · rw [String.length_ofList, List.length_append]
    omega
  · rw [String.toList_ofList, String.toList_ofList, Nat.add_sub_cancel_left, List.drop_left]
    exact List.prefix_append _ _

end

/-! ## Tokens -/

namespace Scan

section

variable {before ahead rest : List Char} {tokens : List Token}

theorem not_lineFeed_mem_of_matches {kind : TokenKind} {word : List Char}
    (h : Matches kind word rest) : '\n' ∉ word := by
  intro hmem
  rcases h.isNameChar_or_mem_signs with hall | hsign
  · exact absurd (hall _ hmem) (by decide)
  · have hsigns : ∀ pair ∈ signs, '\n' ∉ pair.2 := by decide
    exact hsigns _ hsign hmem

/-- Tokens that have been passed come one after the other, and all of them before the place behind
them. -/
theorem pairwise_before_of_passed (h : Passed before ahead rest tokens) :
    (tokens.map Token.position ++ [placeBehind (before ++ ahead)]).Pairwise Position.Before := by
  induction h with
  | nil => exact List.pairwise_singleton _ _
  | gap _ _ ih => rwa [List.append_assoc] at ih
  | @token before word ahead rest kind tokens hlongest _ hpassed ih =>
    obtain ⟨c, tail, rfl⟩ := hlongest.fits.exists_cons
    rw [List.map_cons, List.cons_append, List.pairwise_cons, ← List.append_assoc]
    refine ⟨fun p hmem => ?_, ih⟩
    have hbehind : ∃ part, p = placeBehind (before ++ c :: tail ++ part) := by
      rcases List.mem_append.1 hmem with hmem | hmem
      · obtain ⟨t, ht, rfl⟩ := List.mem_map.1 hmem
        obtain ⟨part, -, -, -, -, -, -, hplace⟩ := place_of_mem_passed hpassed ht
        exact ⟨part, hplace⟩
      · exact ⟨ahead, List.mem_singleton.1 hmem⟩
    obtain ⟨part, rfl⟩ := hbehind
    rw [List.append_assoc]
    exact before_placeBehind (List.cons_ne_nil c (tail ++ part))

end

variable {source : String}

/-- The tokens of a text stand at places of their own. -/
theorem nodup_positions_of_tokens {tokens : List Token} (h : Scan.tokens source = .ok tokens) :
    (tokens.map Token.position).Nodup := by
  have houtcome := outcome_tokens source
  rw [h] at houtcome
  cases houtcome with
  | tokens _ hpassed _ =>
    rw [List.map_append]
    exact (pairwise_before_of_passed hpassed).imp Position.Before.ne

/-- The tokens of a text stand where their positions say. Only the end of the input has no text. -/
theorem standsAt_of_mem_tokens {tokens : List Token} (h : Scan.tokens source = .ok tokens)
    {t : Token} (ht : t ∈ tokens) :
    StandsAt source t.position t.text ∧ (t.text = "" → t.kind = .endOfInput) := by
  have houtcome := outcome_tokens source
  rw [h] at houtcome
  cases houtcome with
  | @tokens ahead rest tokens heq hpassed _ =>
    rcases List.mem_append.1 ht with ht | ht
    · obtain ⟨part, word, more, hpart, hlongest, -, htext, hposition⟩ :=
        place_of_mem_passed hpassed ht
      obtain ⟨c, tail, rfl⟩ := hlongest.fits.exists_cons
      rw [htext, hposition]
      refine ⟨?_, fun hempty => ?_⟩
      · exact standsAt_placeBehind (heq.trans hpart) (not_lineFeed_mem_of_matches hlongest.fits)
      · simp [String.ext_iff] at hempty
    · have hend : source.toList = ahead ++ [] ++ rest := by rw [heq, List.append_nil]
      rw [List.mem_singleton.1 ht]
      exact ⟨standsAt_placeBehind hend List.not_mem_nil, fun _ => rfl⟩

/-- The text that a fault is about. A numeral that is too long to be read has no say in a message. -/
def Fault.culprit : Fault → String
  | unexpectedCharacter c => String.singleton c
  | gluedNumeral text | outOfRange text => text
  | unreadableNumeral _ => ""

theorem culprit_of_numeralLexeme {word : List Char} {fault : Fault}
    (h : numeralLexeme word = .fault fault) (hreported : fault.isReported = true) :
    fault.culprit = String.ofList word := by
  rcases numeralLexeme_forms word with ⟨-, hnumeral⟩ | ⟨-, -, hnumeral⟩ | ⟨-, hnumeral⟩ |
    ⟨-, -, -, hnumeral⟩
  · cases h.symm.trans hnumeral
    rfl
  · cases h.symm.trans hnumeral
    rfl
  · cases h.symm.trans hnumeral
    cases hreported
  · cases h.symm.trans hnumeral

/-- Where no token begins there is the text that the fault is about. -/
theorem exists_culprit_of_lexemeAt {c : Char} {rest : List Char} {fault : Fault}
    (h : lexemeAt c rest = .fault fault) (hreported : fault.isReported = true) :
    ∃ word more, c :: rest = c :: word ++ more ∧ '\n' ∉ c :: word ∧
      fault.culprit = String.ofList (c :: word) := by
  rcases lexemeAt_forms c rest with ⟨-, hblank⟩ | ⟨-, -, hcomment⟩ | ⟨hc, hword⟩ |
    ⟨-, _, _, -, htoken⟩ | hfault
  · cases h.symm.trans hblank
  · cases h.symm.trans hcomment
  · rw [hword] at h
    split at h
    · have hculprit := culprit_of_numeralLexeme h hreported
      obtain ⟨more, hsplit, hchars, -⟩ := exists_takeWhile isNameChar (c :: rest)
      rw [List.takeWhile_cons_of_pos hc] at hculprit hsplit hchars
      exact ⟨_, more, hsplit, fun hmem => absurd (hchars _ hmem) (by decide), hculprit⟩
    · cases h
  · cases h.symm.trans htoken
  · cases h.symm.trans hfault
    refine ⟨[], rest, rfl, fun hmem => ?_, rfl⟩
    rw [← List.mem_singleton.1 hmem] at hfault
    have hblank : lexemeAt '\n' rest = .blank := if_pos (by decide)
    cases hfault.symm.trans hblank

/-- A fault that is reported stands at the position of the error. -/
theorem standsAt_of_tokens_error {e : Error} (h : Scan.tokens source = .error e)
    (hreported : e.fault.isReported = true) :
    StandsAt source e.position e.fault.culprit ∧ e.fault.culprit ≠ "" := by
  have houtcome := outcome_tokens source
  rw [h] at houtcome
  cases houtcome with
  | @fault ahead rest c _ fault heq _ hfault =>
    obtain ⟨word, more, hword, hline, hculprit⟩ := exists_culprit_of_lexemeAt hfault hreported
    rw [hword, ← List.append_assoc] at heq
    simp only
    rw [hculprit]
    refine ⟨standsAt_placeBehind heq hline, ?_⟩
    simp [String.ext_iff]

end Scan

end TapeCompiler
