import TapeCompiler.Proofs.Located
/-!
# Where the input ends

The last token of a text marks the end of its input. It is meant to stand behind the last character
of the text, and it does, unless the last line has a comment: a comment takes up no columns, so then
the token stands where the comment begins (`tokenize_endOfInput`).
-/
namespace TapeCompiler

open TapeCompiler.Text

/-- The characters behind the last line feed. -/
def lastLine (text : List Char) : List Char := (text.reverse.takeWhile (· != '\n')).reverse

/-- A line up to its comment. -/
def uncommented : List Char → List Char
  | '/' :: '/' :: _ => []
  | c :: rest => c :: uncommented rest
  | [] => []

/-! ## Last lines -/

section

variable {text rest line : List Char}

theorem lastLine_append (h : '\n' ∉ rest) : lastLine (text ++ rest) = lastLine text ++ rest := by
  rw [lastLine, List.reverse_append, takeWhile_append_lineFeed (by rwa [List.mem_reverse]),
    List.reverse_append, List.reverse_reverse, lastLine]

theorem lastLine_append_lineFeed (text : List Char) : lastLine (text ++ ['\n']) = [] := by
  simp [lastLine]

/-- What is on the last line was there before, or it has been added. -/
theorem mem_lastLine_append {c : Char} (h : c ∈ lastLine (text ++ rest)) :
    c ∈ lastLine text ∨ c ∈ rest := by
  rw [lastLine, List.mem_reverse, List.reverse_append, List.takeWhile_append] at h
  split at h
  · rcases List.mem_append.1 h with h | h
    · exact .inr (List.mem_reverse.1 h)
    · exact .inl (List.mem_reverse.2 h)
  · exact .inr (List.mem_reverse.1 ((List.takeWhile_prefix _).subset h))

theorem placeBehind_eq (text : List Char) :
    placeBehind text = ⟨1 + text.count '\n', 1 + (lastLine text).length⟩ := by
  rw [placeBehind, lastLine, List.length_reverse]

theorem uncommented_append (hline : '/' ∉ line) (hrest : Scan.EndsText rest) :
    uncommented (line ++ rest) = line := by
  induction line with
  | nil =>
    obtain rfl | ⟨comment, rfl, -⟩ := hrest
    · rfl
    · rw [List.nil_append, uncommented]
  | cons c line ih =>
    rw [List.mem_cons, not_or] at hline
    rw [List.cons_append, uncommented, ih hline.2]
    intro more hslash
    exact absurd hslash.symm hline.1

theorem infix_endsText (hline : '/' ∉ line) (hrest : Scan.EndsText rest) :
    ['/', '/'] <:+: line ++ rest ↔ rest ≠ [] := by
  obtain rfl | ⟨comment, rfl, -⟩ := hrest
  · rw [List.append_nil]
    exact iff_of_false (fun h => hline (h.subset List.mem_cons_self)) (not_not_intro rfl)
  · exact iff_of_true ⟨line, comment, by simp⟩ (List.cons_ne_nil _ _)

end

/-! ## The end of a scan -/

namespace Scan

/-- No line feed stands in a comment at the end. -/
theorem EndsText.not_lineFeed_mem {rest : List Char} (h : EndsText rest) : '\n' ∉ rest := by
  obtain rfl | ⟨comment, rfl, hcomment⟩ := h
  · exact List.not_mem_nil
  · simpa using hcomment

theorem not_slash_mem_of_matches {kind : TokenKind} {word rest : List Char}
    (h : Matches kind word rest) : '/' ∉ word := by
  intro hmem
  rcases h.isNameChar_or_mem_signs with hall | hsign
  · exact absurd (hall _ hmem) (by decide)
  · have hsigns : ∀ pair ∈ signs, '/' ∉ pair.2 := by decide
    exact hsigns _ hsign hmem

/-- The last of the tokens marks the end of the input, at this place, and no other one does. -/
def ClosesAt (place : Position) (tokens : List Token) : Prop :=
  ∃ front, tokens = front ++ [⟨.endOfInput, "", place⟩] ∧ ∀ t ∈ front, t.kind ≠ .endOfInput

theorem ClosesAt.cons {place : Position} {tokens : List Token} {t : Token}
    (h : ClosesAt place tokens) (ht : t.kind ≠ .endOfInput) : ClosesAt place (t :: tokens) := by
  obtain ⟨front, rfl, hfront⟩ := h
  exact ⟨t :: front, rfl, List.forall_mem_cons.2 ⟨ht, hfront⟩⟩

/-- The text behind `before` ends in a comment or in nothing, and the tokens close where that
begins, which is behind the last line up to its comment. -/
def EndsBehind (before text : List Char) (tokens : List Token) : Prop :=
  ∃ ahead rest, text = ahead ++ rest ∧ EndsText rest ∧ '/' ∉ lastLine (before ++ ahead) ∧
    ClosesAt (placeBehind (before ++ ahead)) tokens

variable {before word rest text : List Char} {tokens : List Token}

theorem EndsBehind.append (h : EndsBehind (before ++ word) rest tokens) :
    EndsBehind before (word ++ rest) tokens := by
  obtain ⟨ahead, behind, rfl, hend, hslash, hcloses⟩ := h
  rw [List.append_assoc] at hslash hcloses
  exact ⟨word ++ ahead, behind, (List.append_assoc _ _ _).symm, hend, hslash, hcloses⟩

theorem EndsBehind.of_endsText (hend : EndsText text) (hbefore : '/' ∉ lastLine before) :
    EndsBehind before text [⟨.endOfInput, "", placeBehind before⟩] := by
  refine ⟨[], text, rfl, hend, by rwa [List.append_nil], [], ?_, ?_⟩
  · rw [List.append_nil, List.nil_append]
  · exact fun _ hmem => absurd hmem List.not_mem_nil

-- A slash that is not in a comment begins no token, so a scan that succeeds passes none on its last
-- line until it comes to a comment there.
theorem Course.endsBehind {result : Except Error (List Token)} (h : Course before text result)
    (hbefore : '/' ∉ lastLine before) :
    ∀ tokens, result = .ok tokens → EndsBehind before text tokens := by
  have hkeep : ∀ {before word : List Char}, '/' ∉ lastLine before → '/' ∉ word →
      '/' ∉ lastLine (before ++ word) := fun hbefore hword hmem =>
    (mem_lastLine_append hmem).elim hbefore hword
  induction h with
  | ends hend =>
    rintro _ ⟨⟩
    exact .of_endsText hend hbefore
  | @blank before rest c _ hblank _ ih =>
    intro tokens hresult
    have hc : '/' ∉ [c] := by
      intro hmem
      rw [← List.mem_singleton.1 hmem] at hblank
      exact absurd hblank (by decide)
    exact (ih (hkeep hbefore hc) tokens hresult).append
  | @comment before line rest _ _ _ ih =>
    intro tokens hresult
    have hslash : '/' ∉ lastLine (before ++ ('/' :: '/' :: line ++ ['\n'])) := by
      rw [← List.append_assoc, lastLine_append_lineFeed]
      exact List.not_mem_nil
    rw [List.append_cons]
    exact (ih hslash tokens hresult).append
  | token hlongest _ _ ih =>
    intro tokens hresult
    obtain ⟨others, hothers, rfl⟩ := map_eq_ok.1 hresult
    have hword := not_slash_mem_of_matches hlongest.fits
    obtain ⟨ahead, behind, htext, hend, hslash, hcloses⟩ :=
      (ih (hkeep hbefore hword) others hothers).append
    exact ⟨ahead, behind, htext, hend, hslash, hcloses.cons hlongest.fits.kind_ne_endOfInput⟩
  | fault =>
    rintro _ ⟨⟩

end Scan

/-! ## The end of a text -/

theorem mem_of_closesAt {place : Position} {tokens : List Token} (h : Scan.ClosesAt place tokens)
    {t : Token} (ht : t ∈ tokens) (hkind : t.kind = .endOfInput) : t.position = place := by
  obtain ⟨front, rfl, hfront⟩ := h
  rcases List.mem_append.1 ht with ht | ht
  · exact absurd hkind (hfront t ht)
  · rw [List.mem_singleton.1 ht]

/-- A failure to parse that is found at the end of the input is reported at its place. -/
theorem diagnostic_of_atEnd {source : String} {tokens : List Token} {place : Position}
    {failure : Failure} (htokens : Scan.tokens source = .ok tokens)
    (hcloses : Scan.ClosesAt place tokens) (h : parseTokens source tokens = .error failure)
    (hend : failure.AtEnd) :
    ∃ d, failure.diagnostic? = some d ∧ d.line = place.line ∧ d.column = some place.column := by
  obtain ⟨e, he, rfl⟩ := mapError_eq_error.1 h
  obtain ⟨_, x, t, hfailure, hkind⟩ := hend
  cases hfailure
  have ht : t ∈ tokens := Grammar.blames_of_parseTokens (Scan.getLast?_tokens htokens) he
  rw [← mem_of_closesAt hcloses ht hkind]
  exact ⟨_, rfl, rfl, rfl⟩

/-- **The input ends behind its last character, a comment left out.** Of the tokens of a text the
last one and no other marks the end of the input. It is on the last line of the text, behind what is
there before a comment; so it is behind the last character of the text exactly if the last line has
no comment. A failure to parse that is found at the end of the input is reported at its place. -/
theorem tokenize_endOfInput {source : String} {tokens : List Token}
    (h : tokenize source = .ok tokens) :
    ∃ place, Scan.ClosesAt place tokens ∧ place.line = 1 + source.toList.count '\n' ∧
      place.column = 1 + (uncommented (lastLine source.toList)).length ∧
      (place = placeBehind source.toList ↔ ¬['/', '/'] <:+: lastLine source.toList) ∧
      ∀ failure, parse source = .error failure → failure.AtEnd →
        ∃ d, failure.diagnostic? = some d ∧ d.line = place.line ∧ d.column = some place.column := by
  have htokens := mapError_eq_ok.1 h
  obtain ⟨ahead, rest, hsource, hend, hslash, hcloses⟩ :=
    (Scan.course [] source.toList).endsBehind List.not_mem_nil tokens htokens
  rw [List.nil_append] at hslash hcloses
  have hlast : lastLine source.toList = lastLine ahead ++ rest := by
    rw [hsource, lastLine_append hend.not_lineFeed_mem]
  have hcount : source.toList.count '\n' = ahead.count '\n' := by
    rw [hsource, List.count_append, List.count_eq_zero_of_not_mem hend.not_lineFeed_mem,
      Nat.add_zero]
  refine ⟨placeBehind ahead, hcloses, ?_, ?_, ?_, fun failure hparse hatEnd => ?_⟩
  · rw [hcount]
    rfl
  · rw [hlast, uncommented_append hslash hend, placeBehind_eq]
  · rw [hlast, infix_endsText hslash hend, not_not, placeBehind_eq, placeBehind_eq, hcount, hlast,
      List.length_append, Position.mk.injEq, ← List.length_eq_zero_iff]
    omega
  · rw [parse, h] at hparse
    exact diagnostic_of_atEnd htokens hcloses hparse hatEnd

/-- The last line of a text ends in a comment, and the body of a loop is not closed. -/
theorem tokenize_endOfInput_comment : ∃ tokens failure d,
    tokenize "while x == 1 \x7b\n  // done" = .ok tokens ∧ Scan.ClosesAt ⟨2, 3⟩ tokens ∧
      parse "while x == 1 \x7b\n  // done" = .error failure ∧ failure.diagnostic? = some d ∧
      d.text = "Expected '\x7d', found end of input" ∧ d.line = 2 ∧ d.column = some 3 := by
  have htokens : tokenize "while x == 1 \x7b\n  // done" = .ok
      [⟨.name, "while", ⟨1, 1⟩⟩, ⟨.name, "x", ⟨1, 7⟩⟩, ⟨.equal, "==", ⟨1, 9⟩⟩,
        ⟨.number, "1", ⟨1, 12⟩⟩, ⟨.openBrace, "\x7b", ⟨1, 14⟩⟩, ⟨.endOfInput, "", ⟨2, 3⟩⟩] := rfl
  have hparse : parse "while x == 1 \x7b\n  // done" = .error (.parse "while x == 1 \x7b\n  // done"
      (.unexpected .closeBrace ⟨.endOfInput, "", ⟨2, 3⟩⟩)) := by
    rw [parse, htokens]
    rfl
  obtain ⟨place, hcloses, -, -, -, hreported⟩ := tokenize_endOfInput htokens
  have hplace := mem_of_closesAt (t := ⟨.endOfInput, "", ⟨2, 3⟩⟩) hcloses (by simp) rfl
  subst hplace
  obtain ⟨d, hd, hline, hcolumn⟩ := hreported _ hparse ⟨_, _, _, rfl, rfl⟩
  refine ⟨_, _, d, htokens, hcloses, hparse, hd, ?_, hline, hcolumn⟩
  cases hd
  decide

/-- With a comment on the last line the end of the input is not behind the last character. -/
theorem not_closesAt_placeBehind :
    ¬∀ source tokens, tokenize source = .ok tokens →
      Scan.ClosesAt (placeBehind source.toList) tokens := by
  intro h
  have htokens : tokenize "move_left // back" =
      .ok [⟨.name, "move_left", ⟨1, 1⟩⟩, ⟨.endOfInput, "", ⟨1, 11⟩⟩] := rfl
  have hplace := mem_of_closesAt (h _ _ htokens) (List.mem_cons_of_mem _ List.mem_cons_self) rfl
  exact absurd hplace (by decide)

end TapeCompiler
