import TapeCompiler.Proofs.Source.Lexeme
/-!
# How far the scan comes

Behind a gap or a token the scan goes on with the position of that place. So a scan passes gaps and
tokens one after the other (`Passed`), and it ends in one of two ways (`outcome`): nothing but a
comment is left, and it gives out the tokens that it has passed; or it stands where no token begins,
and it fails there.
-/
namespace TapeCompiler

open TapeCompiler.Text

namespace Scan

/-! ## Positions -/

theorem placeBehind_append_singleton (before : List Char) (c : Char) :
    placeBehind (before ++ [c]) = (placeBehind before).after c := by
  by_cases hc : c = '\n'
  · simp [placeBehind, Position.after, hc, Int.add_assoc]
  · simp [placeBehind, Position.after, hc, Int.add_assoc, List.count_append]

/-- A text without line feeds stays on its line. -/
theorem line_placeBehind_append {before text : List Char} (h : '\n' ∉ text) :
    (placeBehind (before ++ text)).line = (placeBehind before).line := by
  simp [placeBehind, List.count_append, List.count_eq_zero_of_not_mem h]

theorem after_lineFeed {p q : Position} (h : p.line = q.line) : p.after '\n' = q.after '\n' := by
  simp [Position.after, h]

/-! ## Gaps -/

section

variable {before text gap rest word : List Char} {p : Position}

theorem scanFrom_blank {c : Char} (h : isBlank c = true) :
    scanFrom .between p (c :: rest) = scanFrom .between (p.after c) rest := by
  have hlexeme : lexemeAt c rest = .blank := if_pos h
  rw [scanFrom, hlexeme]

theorem scanFrom_slashes :
    scanFrom .between p ('/' :: '/' :: rest) = scanFrom .comment p ('/' :: rest) := by
  rw [scanFrom]
  rfl

/-- A comment is passed over; the position stays where the comment begins. -/
theorem scanFrom_comment (h : '\n' ∉ text) :
    scanFrom .comment p (text ++ rest) = scanFrom .comment p rest := by
  induction text with
  | nil => rfl
  | cons c more ih =>
    rw [List.mem_cons, not_or] at h
    rw [List.cons_append, scanFrom, if_neg (Ne.symm h.1), ih h.2]

/-- Behind a comment the scan goes on at the end of the line, with the position of that place. -/
theorem scanFrom_comment_lineFeed (h : '\n' ∉ text) :
    scanFrom .between (placeBehind before) ('/' :: '/' :: text ++ '\n' :: rest) =
      scanFrom .between (placeBehind (before ++ '/' :: '/' :: text)) ('\n' :: rest) := by
  have hline : '\n' ∉ '/' :: '/' :: text := by simp [h]
  rw [List.cons_append, List.cons_append, scanFrom_slashes, ← List.cons_append,
    scanFrom_comment (List.not_mem_of_not_mem_cons hline), scanFrom_blank (by decide), scanFrom,
    if_pos rfl, after_lineFeed (line_placeBehind_append hline)]

/-- A comment at the end of the text leaves nothing behind it. -/
theorem scanFrom_comment_end (h : '\n' ∉ text) :
    scanFrom .between p ('/' :: '/' :: text) = scanFrom .between p [] := by
  have hline : '\n' ∉ '/' :: text := by simp [h]
  rw [scanFrom_slashes, ← List.append_nil ('/' :: text), scanFrom_comment hline, scanFrom, scanFrom]

theorem scanFrom_within : scanFrom (.within word.length) (placeBehind before) (word ++ rest) =
    scanFrom .between (placeBehind (before ++ word)) rest := by
  induction word generalizing before with
  | nil => simp
  | cons c more ih =>
    rw [List.length_cons, List.cons_append, scanFrom, ← placeBehind_append_singleton, ih,
      List.append_assoc, List.singleton_append]

/-- The scan goes on behind a gap, in the text up to some place behind it. It does so with the
position of the place behind the gap, unless the text ends there, and perhaps in a comment: a
comment at the end of the text leaves the position behind. -/
theorem scanFrom_gap_cut {more : List Char} (h : Gap gap (rest ++ more)) (before : List Char) :
    ∃ p, scanFrom .between (placeBehind before) (gap ++ rest) = scanFrom .between p rest ∧
      ((rest = [] → ∃ c, more.head? = some c ∧ c ≠ '\n') → p = placeBehind (before ++ gap)) := by
  generalize hfollow : rest ++ more = follow at h
  induction h generalizing before with
  | nil => exact ⟨placeBehind before, rfl, by simp⟩
  | @blank c gap _ hblank _ ih =>
    obtain ⟨p, hscan, hp⟩ := ih (before ++ [c]) hfollow
    refine ⟨p, ?_, by simpa using hp⟩
    rw [List.cons_append, scanFrom_blank hblank, ← placeBehind_append_singleton, hscan]
  | @comment text gap _ htext hend _ ih =>
    subst hfollow
    cases hbehind : gap ++ rest with
    | nil =>
      obtain ⟨rfl, rfl⟩ := List.append_eq_nil_iff.1 hbehind
      refine ⟨placeBehind before, ?_, fun hplace => ?_⟩
      · rw [List.append_nil, List.append_nil, scanFrom_comment_end htext]
      · obtain ⟨c, hc, hline⟩ := hplace rfl
        exact absurd (hend c hc) hline
    | cons c behind =>
      obtain rfl : c = '\n' := hend c (by rw [← List.append_assoc, hbehind]; rfl)
      obtain ⟨p, hgap, hp⟩ := ih (before ++ '/' :: '/' :: text) rfl
      refine ⟨p, ?_, fun hplace => by rw [hp hplace, List.append_assoc]⟩
      rw [List.append_assoc, hbehind, scanFrom_comment_lineFeed htext, ← hbehind, hgap]

theorem scanFrom_gap (h : Gap gap rest) (before : List Char) :
    ∃ p, scanFrom .between (placeBehind before) (gap ++ rest) = scanFrom .between p rest ∧
      (rest ≠ [] → p = placeBehind (before ++ gap)) := by
  rw [← List.append_nil rest] at h
  obtain ⟨p, hscan, hp⟩ := scanFrom_gap_cut h before
  exact ⟨p, hscan, fun hne => hp fun hnil => absurd hnil hne⟩

end

/-! ## Tokens -/

section

variable {before text ahead rest : List Char} {tokens : List Token}

theorem scanFrom_longest {kind : TokenKind} {word rest : List Char} (h : Longest kind word rest)
    (hshort : kind = .number → word.length ≤ digitLimit) :
    scanFrom .between (placeBehind before) (word ++ rest) =
      (scanFrom .between (placeBehind (before ++ word)) rest).map
        (⟨kind, String.ofList word, placeBehind before⟩ :: ·) := by
  obtain ⟨c, more, rfl⟩ := h.fits.exists_cons
  have hlexeme := lexemeAt_of_longest h hshort
  have htake : (c :: (more ++ rest)).take (more.length + 1) = c :: more := by simp
  have hwithin : scanFrom (.within more.length) ((placeBehind before).after c) (more ++ rest) =
      scanFrom .between (placeBehind (before ++ c :: more)) rest := by
    rw [← placeBehind_append_singleton, scanFrom_within, List.append_assoc, List.singleton_append]
  rw [List.cons_append, scanFrom, hlexeme]
  simp only [Nat.add_sub_cancel, hwithin, htake]
  cases scanFrom .between (placeBehind (before ++ c :: more)) rest <;> rfl

theorem exists_line (text : List Char) : ∃ line tail, text = line ++ tail ∧ '\n' ∉ line ∧
    (tail = [] ∨ ∃ next, tail = '\n' :: next) := by
  induction text with
  | nil => exact ⟨[], [], rfl, List.not_mem_nil, .inl rfl⟩
  | cons c rest ih =>
    by_cases hc : c = '\n'
    · exact ⟨[], c :: rest, rfl, List.not_mem_nil, .inr ⟨rest, by rw [hc]⟩⟩
    · obtain ⟨line, tail, rfl, hline, htail⟩ := ih
      exact ⟨c :: line, tail, rfl, by simp [hline, Ne.symm hc], htail⟩

/-! ## What has been passed -/

/-- Behind `before` the text `ahead` holds gaps and these tokens, and `rest` follows. Numbers have
few enough digits to be read. -/
inductive Passed : List Char → List Char → List Char → List Token → Prop
  | nil {before rest : List Char} : Passed before [] rest []
  | gap {before gap ahead rest : List Char} {tokens : List Token} : Gap gap (ahead ++ rest) →
      Passed (before ++ gap) ahead rest tokens → Passed before (gap ++ ahead) rest tokens
  | token {before word ahead rest : List Char} {kind : TokenKind} {tokens : List Token} :
      Longest kind word (ahead ++ rest) → (kind = .number → word.length ≤ digitLimit) →
      Passed (before ++ word) ahead rest tokens →
      Passed before (word ++ ahead) rest
        (⟨kind, String.ofList word, placeBehind before⟩ :: tokens)

/-- Nothing is left of a text, or one comment on its last line. -/
def EndsText (rest : List Char) : Prop :=
  rest = [] ∨ ∃ text, rest = '/' :: '/' :: text ∧ '\n' ∉ text

/-- The ways in which the scan of a text may end. -/
inductive Outcome (before text : List Char) : Except Error (List Token) → Prop
  | tokens {ahead rest : List Char} {tokens : List Token} : text = ahead ++ rest →
      Passed before ahead rest tokens → EndsText rest →
      Outcome before text (.ok (tokens ++ [⟨.endOfInput, "", placeBehind (before ++ ahead)⟩]))
  | fault {ahead rest : List Char} {c : Char} {tokens : List Token} {fault : Fault} :
      text = ahead ++ c :: rest → Passed before ahead (c :: rest) tokens →
      lexemeAt c rest = .fault fault →
      Outcome before text (.error ⟨fault, placeBehind (before ++ ahead)⟩)

theorem Outcome.of_gap {gap : List Char} {result : Except Error (List Token)}
    (hgap : Gap gap rest) (h : Outcome (before ++ gap) rest result) :
    Outcome before (gap ++ rest) result := by
  cases h with
  | tokens heq hpassed hend =>
    rw [List.append_assoc]
    refine .tokens ?_ (.gap ?_ hpassed) hend
    · rw [heq, List.append_assoc]
    · rwa [← heq]
  | fault heq hpassed hfault =>
    rw [List.append_assoc]
    refine .fault ?_ (.gap ?_ hpassed) hfault
    · rw [heq, List.append_assoc]
    · rwa [← heq]

theorem Outcome.of_token {kind : TokenKind} {word : List Char}
    {result : Except Error (List Token)} (hlongest : Longest kind word rest)
    (hshort : kind = .number → word.length ≤ digitLimit)
    (h : Outcome (before ++ word) rest result) :
    Outcome before (word ++ rest)
      (result.map (⟨kind, String.ofList word, placeBehind before⟩ :: ·)) := by
  cases h with
  | tokens heq hpassed hend =>
    rw [List.append_assoc]
    refine .tokens ?_ (.token ?_ hshort hpassed) hend
    · rw [heq, List.append_assoc]
    · rwa [← heq]
  | fault heq hpassed hfault =>
    rw [List.append_assoc]
    refine .fault ?_ (.token ?_ hshort hpassed) hfault
    · rw [heq, List.append_assoc]
    · rwa [← heq]

theorem Outcome.of_endsText (h : EndsText text) :
    Outcome before text (.ok [⟨.endOfInput, "", placeBehind before⟩]) := by
  have hend : Outcome before text (.ok ([] ++ [⟨.endOfInput, "", placeBehind (before ++ [])⟩])) :=
    .tokens rfl .nil h
  rwa [List.append_nil] at hend

/-- A comment is a gap together with the end of its line. -/
theorem gap_comment {line : List Char} (hline : '\n' ∉ line) (rest : List Char) :
    Gap ('/' :: '/' :: line ++ ['\n']) rest := by
  refine .comment hline ?_ (.blank (by decide) .nil)
  rintro d ⟨⟩
  rfl

/-- How the scan of what stands behind `before` goes on, step by step: over a blank, a comment with
the end of its line, or a token, until it ends or fails. -/
inductive Course : List Char → List Char → Except Error (List Token) → Prop
  | ends {before text : List Char} : EndsText text →
      Course before text (.ok [⟨.endOfInput, "", placeBehind before⟩])
  | blank {before rest : List Char} {c : Char} {result : Except Error (List Token)} :
      isBlank c = true → Course (before ++ [c]) rest result → Course before (c :: rest) result
  | comment {before line rest : List Char} {result : Except Error (List Token)} : '\n' ∉ line →
      Course (before ++ ('/' :: '/' :: line ++ ['\n'])) rest result →
      Course before ('/' :: '/' :: line ++ '\n' :: rest) result
  | token {before word rest : List Char} {kind : TokenKind} {result : Except Error (List Token)} :
      Longest kind word rest → (kind = .number → word.length ≤ digitLimit) →
      Course (before ++ word) rest result →
      Course before (word ++ rest) (result.map (⟨kind, String.ofList word, placeBehind before⟩ :: ·))
  | fault {before rest : List Char} {c : Char} {fault : Fault} : lexemeAt c rest = .fault fault →
      Course before (c :: rest) (.error ⟨fault, placeBehind before⟩)

-- What begins at the first place decides on the step; the induction, on the length of the text,
-- applies to what follows.
theorem course (before text : List Char) :
    Course before text (scanFrom .between (placeBehind before) text) := by
  induction hlength : text.length using Nat.strong_induction_on generalizing text before with
  | _ n ih =>
    subst hlength
    have hnext : ∀ {word rest : List Char} (before : List Char), word ≠ [] → text = word ++ rest →
        Course before rest (scanFrom .between (placeBehind before) rest) := by
      rintro word rest before hne rfl
      refine ih rest.length ?_ before rest rfl
      have := List.length_pos_iff.2 hne
      simp only [List.length_append]
      omega
    cases text with
    | nil => exact .ends (.inl rfl)
    | cons c rest =>
      rcases lexemeAt_cases c rest with hblank | ⟨rfl, hslash⟩ | ⟨kind, length, hlexeme⟩ |
        ⟨fault, hlexeme⟩
      · rw [scanFrom_blank hblank, ← placeBehind_append_singleton]
        exact .blank hblank (hnext _ (List.cons_ne_nil c []) rfl)
      · obtain ⟨more, rfl⟩ : ∃ more, rest = '/' :: more := List.head?_eq_some_iff.1 hslash
        obtain ⟨line, tail, rfl, hline, rfl | ⟨next, rfl⟩⟩ := exists_line more
        · rw [List.append_nil, scanFrom_comment_end hline, scanFrom]
          exact .ends (.inr ⟨line, rfl, hline⟩)
        · have hscan : scanFrom .between (placeBehind before) ('/' :: '/' :: line ++ '\n' :: next) =
              scanFrom .between (placeBehind (before ++ ('/' :: '/' :: line ++ ['\n']))) next := by
            rw [scanFrom_comment_lineFeed hline, scanFrom_blank (by decide),
              ← placeBehind_append_singleton, List.append_assoc]
          rw [← List.cons_append, ← List.cons_append, hscan]
          have hrest : '/' :: '/' :: (line ++ '\n' :: next) =
              ('/' :: '/' :: line ++ ['\n']) ++ next := by simp
          exact .comment hline (hnext _ (by simp) hrest)
      · obtain ⟨word, more, heq, hword, hlongest⟩ := longest_of_lexemeAt hlexeme
        have hshort : kind = .number → word.length ≤ digitLimit := by
          rintro rfl
          exact hword ▸ length_le_of_lexemeAt hlexeme
        obtain ⟨d, tail, rfl⟩ := hlongest.fits.exists_cons
        have hrest := hnext (before ++ d :: tail) (List.cons_ne_nil d tail) heq
        rw [heq, scanFrom_longest hlongest hshort]
        exact .token hlongest hshort hrest
      · rw [scanFrom, hlexeme]
        exact .fault hlexeme

/-- A scan that has run its course has passed gaps and tokens up to where it ended. -/
theorem Course.outcome {result : Except Error (List Token)} (h : Course before text result) :
    Outcome before text result := by
  induction h with
  | ends hend => exact .of_endsText hend
  | blank hblank _ ih => exact .of_gap (.blank hblank .nil) ih
  | comment hline _ ih =>
    rw [List.append_cons]
    exact .of_gap (gap_comment hline _) ih
  | token hlongest hshort _ ih => exact .of_token hlongest hshort ih
  | @fault before rest c fault hlexeme =>
    have hfails : Outcome before (c :: rest) (.error ⟨fault, placeBehind (before ++ [])⟩) :=
      .fault rfl .nil hlexeme
    rwa [List.append_nil] at hfails

theorem outcome (before text : List Char) :
    Outcome before text (scanFrom .between (placeBehind before) text) := (course before text).outcome

theorem outcome_tokens (source : String) : Outcome [] source.toList (Scan.tokens source) :=
  outcome [] source.toList

/-- The last of the tokens of a text is the end of the input. -/
theorem getLast?_tokens {source : String} (h : Scan.tokens source = .ok tokens) :
    tokens.getLast?.map Token.kind = some .endOfInput := by
  have houtcome := outcome_tokens source
  rw [h] at houtcome
  cases houtcome with
  | tokens => simp

/-- Each token that has been passed is the longest one at its position. -/
theorem place_of_mem_passed (h : Passed before ahead rest tokens) {t : Token} (ht : t ∈ tokens) :
    ∃ part word more, ahead ++ rest = part ++ word ++ more ∧ Longest t.kind word more ∧
      (t.kind = .number → word.length ≤ digitLimit) ∧ t.text = String.ofList word ∧
      t.position = placeBehind (before ++ part) := by
  induction h with
  | nil => exact absurd ht List.not_mem_nil
  | @gap before gap ahead rest tokens _ _ ih =>
    obtain ⟨part, word, more, heq, hlongest, hshort, htext, hposition⟩ := ih ht
    refine ⟨gap ++ part, word, more, ?_, hlongest, hshort, htext, ?_⟩
    · rw [List.append_assoc, heq]
      simp
    · rw [hposition, List.append_assoc]
  | @token before word ahead rest kind tokens hlongest hshort _ ih =>
    rcases List.mem_cons.1 ht with rfl | ht
    · exact ⟨[], word, ahead ++ rest, by simp, hlongest, hshort, rfl, by simp⟩
    · obtain ⟨part, word', more, heq, hlongest, hshort, htext, hposition⟩ := ih ht
      refine ⟨word ++ part, word', more, ?_, hlongest, hshort, htext, ?_⟩
      · rw [List.append_assoc, heq]
        simp
      · rw [hposition, List.append_assoc]

/-- A scan goes on behind what has been passed, in the text up to some place behind it. -/
theorem scanFrom_passed_cut {more : List Char} (h : Passed before ahead (rest ++ more) tokens)
    (hrest : rest = [] → ∃ c, more.head? = some c ∧ c ≠ '\n') :
    scanFrom .between (placeBehind before) (ahead ++ rest) =
      (scanFrom .between (placeBehind (before ++ ahead)) rest).map (tokens ++ ·) := by
  generalize hfollow : rest ++ more = follow at h
  induction h with
  | @nil before =>
    rw [List.append_nil, List.nil_append]
    generalize scanFrom .between (placeBehind before) rest = result
    cases result <;> rfl
  | gap hgap _ ih =>
    subst hfollow
    rw [← List.append_assoc] at hgap
    obtain ⟨p, hscan, hp⟩ := scanFrom_gap_cut hgap _
    have hplace := hp fun hnil => hrest (List.append_eq_nil_iff.1 hnil).2
    rw [List.append_assoc, hscan, hplace, ih rfl, List.append_assoc]
  | token hlongest hshort _ ih =>
    subst hfollow
    rw [← List.append_assoc] at hlongest
    rw [List.append_assoc, scanFrom_longest hlongest.cut hshort, ih rfl, map_map,
      List.append_assoc]
    rfl

theorem scanFrom_passed (h : Passed before ahead rest tokens) (hrest : rest ≠ []) :
    scanFrom .between (placeBehind before) (ahead ++ rest) =
      (scanFrom .between (placeBehind (before ++ ahead)) rest).map (tokens ++ ·) := by
  rw [← List.append_nil rest] at h
  exact scanFrom_passed_cut h fun hnil => absurd hnil hrest

/-- What has been passed, with the rest of a text that ends there, is split into the tokens. -/
theorem splits_of_passed (h : Passed before ahead rest tokens) (hrest : Gap rest []) :
    Splits before (ahead ++ rest) tokens := by
  induction h with
  | nil => exact .done hrest
  | gap hgap _ ih =>
    rw [List.append_assoc]
    exact .of_gap hgap (ih hrest)
  | @token before word ahead rest kind tokens hlongest _ _ ih =>
    have hsplits := ih hrest
    rw [← List.append_nil before] at hsplits
    rw [List.append_assoc]
    simpa using Splits.token .nil hlongest hsplits

theorem EndsText.gap (h : EndsText rest) : Gap rest [] := by
  obtain rfl | ⟨text, rfl, htext⟩ := h
  · exact .nil
  · have hgap : Gap ('/' :: '/' :: text ++ []) [] := .comment htext (by simp) .nil
    rwa [List.append_nil] at hgap

end

end Scan

end TapeCompiler
