import TapeCompiler.Compile
import TapeCompiler.Proofs.Except
import TapeCompiler.Proofs.Source.Places
/-!
# The first fault of a text

A lexical error is about the first place of a text where no token begins. The text before that place
splits into tokens by itself: a gap and a token are the same in a text that ends behind them. At the
place stands a character that begins nothing, a run of digits too large for a cell, or a run of
digits that goes on as a name, and each of these runs is there from its first character to its last
(`firstFault_of_tokenize`).
-/
namespace TapeCompiler

open TapeCompiler.Text

/-! ## Places -/

/-- A source is cut at a place: into all that stands before the place, and what begins there. -/
structure CutAt (source : String) (p : Position) (ahead rest : List Char) : Prop where
  text : source.toList = ahead ++ rest
  place : placeBehind ahead = p
  only : ∀ other more, source.toList = other ++ more → placeBehind other = p → other = ahead

/-- Every place of a text is the only one with its position. -/
theorem cutAt_placeBehind {source : String} {ahead rest : List Char}
    (h : source.toList = ahead ++ rest) : CutAt source (placeBehind ahead) ahead rest where
  text := h
  place := rfl
  only := by
    intro other more hother hplace
    rcases List.append_eq_append_iff.1 (hother.symm.trans h) with ⟨part, rfl, -⟩ | ⟨part, rfl, -⟩
    · cases part with
      | nil => exact (List.append_nil other).symm
      | cons c part => exact absurd hplace (before_placeBehind (List.cons_ne_nil c part)).ne
    · cases part with
      | nil => exact List.append_nil ahead
      | cons c part => exact absurd hplace.symm (before_placeBehind (List.cons_ne_nil c part)).ne

/-! ## Runs of characters -/

/-- Between `before` and `rest`, a run of characters of one sort that neither neighbour goes on
with. -/
structure MaximalRun (p : Char → Bool) (before run rest : List Char) : Prop where
  nonempty : run ≠ []
  all : ∀ c ∈ run, p c = true
  starts : ∀ c, before.getLast? = some c → p c = false
  ends : ∀ c, rest.head? = some c → p c = false

section

variable {before word gap ahead rest : List Char} {kind : TokenKind} {tokens : List Token}
  {c d : Char}

/-- A token before a character of a name does not end with one. -/
theorem Longest.not_isNameChar_last (h : Longest kind word (c :: rest)) (hc : isNameChar c = true)
    (hd : word.getLast? = some d) : isNameChar d = false := by
  have hfits := h.fits
  cases hfits with
  | name hname =>
    -- The name could be longer by one character.
    have hlonger : isName (word ++ [c]) = true := by
      obtain ⟨first, tail, rfl⟩ := h.fits.exists_cons
      simp only [isName, List.cons_append, List.all_append, Bool.and_eq_true] at hname ⊢
      exact ⟨hname.1, hname.2, by simp [hc]⟩
    have hlength := h.longest .name (word ++ [c]) rest (by simp) (.name hlonger)
    rw [List.length_append, List.length_singleton] at hlength
    omega
  | number _ _ hrest => simp [hrest c rfl] at hc
  | sign hsign => exact not_isNameChar_of_mem_signs hsign d (List.mem_of_getLast? hd)

theorem getLast?_append_cases (h : (word ++ ahead).getLast? = some d) :
    ahead.getLast? = some d ∨ ahead = [] ∧ word.getLast? = some d := by
  cases ahead with
  | nil => exact .inr ⟨rfl, by rwa [List.append_nil] at h⟩
  | cons first more =>
    rw [List.getLast?_append_of_ne_nil _ (List.cons_ne_nil _ _)] at h
    exact .inl h

/-- Nor does a gap: a blank is no such character, and behind a comment the line ends. -/
theorem Gap.not_isNameChar_last (h : Gap gap (c :: rest)) (hc : isNameChar c = true)
    (hd : gap.getLast? = some d) : isNameChar d = false := by
  generalize hfollow : c :: rest = follow at h
  induction h with
  | nil => cases hd
  | @blank first gap _ hblank _ ih =>
    rw [← List.singleton_append] at hd
    rcases getLast?_append_cases hd with hlast | ⟨rfl, hlast⟩
    · exact ih hlast hfollow
    · cases hlast
      exact (parts_of_isBlank hblank).name
  | @comment text gap _ _ hend _ ih =>
    subst hfollow
    rcases getLast?_append_cases hd with hlast | ⟨rfl, -⟩
    · exact ih hlast rfl
    · obtain rfl := hend c rfl
      exact absurd hc (by decide)

/-- So what has been passed before a character of a name does not end with one. -/
theorem Scan.Passed.not_isNameChar_last (h : Scan.Passed before ahead (c :: rest) tokens)
    (hc : isNameChar c = true) (hd : ahead.getLast? = some d) : isNameChar d = false := by
  generalize hfollow : c :: rest = follow at h
  induction h with
  | nil => cases hd
  | gap hgap _ ih =>
    subst hfollow
    rcases getLast?_append_cases hd with hlast | ⟨rfl, hlast⟩
    · exact ih hlast rfl
    · exact hgap.not_isNameChar_last hc hlast
  | token hlongest _ _ ih =>
    subst hfollow
    rcases getLast?_append_cases hd with hlast | ⟨rfl, hlast⟩
    · exact ih hlast rfl
    · exact hlongest.not_isNameChar_last hc hlast

end

/-! ## Where no token begins -/

/-- What stands behind `before` where no token begins, with the fault that it is. -/
inductive NoToken (before : List Char) : Scan.Fault → List Char → Prop
  | character {c : Char} {rest : List Char} : isNameChar c = false → isBlank c = false →
      ¬(c = '/' ∧ rest.head? = some '/') →
      (∀ kind word more, c :: rest = word ++ more → ¬Matches kind word more) →
      NoToken before (.unexpectedCharacter c) (c :: rest)
  | outOfRange {run rest : List Char} : MaximalRun Char.isDigit before run rest →
      (∀ c, rest.head? = some c → isNameChar c = false) → 255 < digitsValue run →
      NoToken before (.outOfRange (String.ofList run)) (run ++ rest)
  | glued {run name rest : List Char} : MaximalRun Char.isDigit before run (name ++ rest) →
      name ≠ [] → (∀ c ∈ name, isNameChar c = true) →
      (∀ c, rest.head? = some c → isNameChar c = false) →
      NoToken before (.gluedNumeral (String.ofList (run ++ name))) (run ++ name ++ rest)

namespace Scan

section

variable {before rest : List Char} {c : Char} {fault : Fault}

theorem numeral_of_lexemeAt (hc : isNameChar c = true) (h : lexemeAt c rest = .fault fault) :
    c.isDigit = true ∧ numeralLexeme ((c :: rest).takeWhile isNameChar) = .fault fault := by
  rw [lexemeAt_word hc] at h
  split at h
  · next hdigit => exact ⟨hdigit, h⟩
  · cases h

/-- A word that is no run of digits, though it begins with one, is a run of digits and a name. -/
theorem noToken_of_glued {word more : List Char}
    (hdigit : ∀ d, word.head? = some d → d.isDigit = true) (hodd : ∃ d ∈ word, d.isDigit = false)
    (hchars : ∀ d ∈ word, isNameChar d = true)
    (hstarts : ∀ d, before.getLast? = some d → d.isDigit = false)
    (hends : ∀ d, more.head? = some d → isNameChar d = false) :
    NoToken before (.gluedNumeral (String.ofList word)) (word ++ more) := by
  obtain ⟨name, hsplit, hrun, hname⟩ := exists_takeWhile Char.isDigit word
  generalize hprefix : word.takeWhile Char.isDigit = run at hsplit hrun
  subst hsplit
  have hnamene : name ≠ [] := by
    rintro rfl
    obtain ⟨d, hd, hodd⟩ := hodd
    rw [List.append_nil] at hd
    simp [hrun d hd] at hodd
  obtain ⟨first, name, rfl⟩ := List.exists_cons_of_ne_nil hnamene
  have hrunne : run ≠ [] := by
    rintro rfl
    simp [hdigit first rfl] at hprefix
  exact .glued ⟨hrunne, hrun, hstarts, hname⟩ hnamene
    (fun d hd => hchars d (List.mem_append_right _ hd)) hends

/-- Where a word with a digit in front is no number, it is a run of digits that is too large, or one
that goes on as a name. -/
theorem noToken_of_word (hc : isNameChar c = true) (h : lexemeAt c rest = .fault fault)
    (hreported : fault.isReported = true)
    (hstarts : ∀ d, before.getLast? = some d → isNameChar d = false) :
    NoToken before fault (c :: rest) := by
  obtain ⟨hdigit, hnumeral⟩ := numeral_of_lexemeAt hc h
  obtain ⟨more, hsplit, hchars, hends⟩ := exists_takeWhile isNameChar (c :: rest)
  rw [List.takeWhile_cons_of_pos hc] at hnumeral hsplit hchars
  generalize htail : rest.takeWhile isNameChar = tail at hnumeral hsplit hchars
  have hfirst : ∀ d, (c :: tail).head? = some d → d.isDigit = true := by
    rintro d ⟨⟩
    exact hdigit
  have hbefore : ∀ d, before.getLast? = some d → d.isDigit = false := fun d hd =>
    isDigit_of_not_isNameChar (hstarts d hd)
  rw [hsplit]
  rcases numeralLexeme_forms (c :: tail) with ⟨hodd, hglued⟩ | ⟨hdigits, hvalue, hlarge⟩ |
    ⟨-, hunreadable⟩ | ⟨-, -, -, hnumber⟩
  · cases hglued.symm.trans hnumeral
    exact noToken_of_glued hfirst hodd hchars hbefore hends
  · cases hlarge.symm.trans hnumeral
    refine .outOfRange ⟨List.cons_ne_nil c tail, hdigits, hbefore, fun d hd => ?_⟩ hends hvalue
    exact isDigit_of_not_isNameChar (hends d hd)
  · cases hunreadable.symm.trans hnumeral
    cases hreported
  · cases hnumber.symm.trans hnumeral

theorem noToken_of_character (hc : isNameChar c = false) (h : lexemeAt c rest = .fault fault) :
    NoToken before fault (c :: rest) := by
  have hblank : isBlank c = false := by
    rw [Bool.eq_false_iff]
    intro hblank
    cases h.symm.trans (if_pos hblank)
  have hslash : ¬(c = '/' ∧ rest.head? = some '/') := by
    intro hslash
    rw [lexemeAt, if_neg (by simp [hblank]), if_pos hslash] at h
    cases h
  have hmatch : ∀ kind word more, c :: rest = word ++ more → ¬Matches kind word more := by
    intro kind word more hsplit hmatch
    obtain ⟨first, tail, rfl⟩ := hmatch.exists_cons
    obtain ⟨rfl, rfl⟩ := List.cons.inj hsplit
    have hsign := mem_signs_of_matches hmatch (List.prefix_append _ more) hc
    obtain ⟨other, length, htoken⟩ := exists_token_of_matches hmatch
      fun hkind => absurd hkind (kind_ne_number_of_mem_signs hsign)
    cases h.symm.trans htoken
  rw [lexemeAt_sign hc hblank hslash] at h
  split at h
  · cases h
  · obtain rfl := Lexeme.fault.inj h
    exact .character hc hblank hslash hmatch

end

/-- The text before a fault splits into tokens that end where the fault is. -/
theorem tokens_before {ahead rest : List Char} {c : Char} {tokens : List Token}
    (h : Passed [] ahead (c :: rest) tokens) (hc : c ≠ '\n') :
    Scan.tokens (String.ofList ahead) =
      .ok (tokens ++ [⟨.endOfInput, "", placeBehind ahead⟩]) := by
  have hpassed : Passed [] ahead ([] ++ c :: rest) tokens := h
  have hscan := scanFrom_passed_cut hpassed fun _ => ⟨c, rfl, hc⟩
  rw [List.append_nil, scanFrom] at hscan
  rw [Scan.tokens, String.toList_ofList]
  exact hscan

theorem before_of_mem_passed {ahead rest : List Char} {tokens : List Token}
    (h : Passed [] ahead rest tokens) {t : Token} (ht : t ∈ tokens) :
    t.kind ≠ .endOfInput ∧ t.position.Before (placeBehind ahead) := by
  obtain ⟨-, word, more, -, hlongest, -, -, -⟩ := place_of_mem_passed h ht
  refine ⟨hlongest.fits.kind_ne_endOfInput, ?_⟩
  have hpairwise := pairwise_before_of_passed h
  exact (List.pairwise_append.1 hpairwise).2.2 _ (List.mem_map_of_mem ht) _
    (List.mem_singleton_self _)

end Scan

/-- **A lexical error reports the first fault.** Where a source is refused with a place, the text
before that place, taken by itself, has tokens: they all begin before the place, and the end of the
input follows them at the place itself. And there no token begins: there is a character that is
neither blank nor the beginning of a comment, a name, a number or a sign; or a maximal run of digits
of a value beyond 255; or a maximal run of digits that a name goes on with. -/
theorem firstFault_of_tokenize {source : String} {failure : Failure} {d : Diagnostic}
    (h : tokenize source = .error failure) (hd : failure.diagnostic? = some d) :
    d.category = .lexical ∧ ∃ p ahead rest tokens fault,
      d.line = p.line ∧ d.column = some p.column ∧ d.text = fault.text ∧
      CutAt source p ahead rest ∧
      tokenize (String.ofList ahead) = .ok (tokens ++ [⟨.endOfInput, "", p⟩]) ∧
      (∀ t ∈ tokens, t.kind ≠ .endOfInput ∧ t.position.Before p) ∧
      NoToken ahead fault rest := by
  obtain ⟨e, he, rfl⟩ := mapError_eq_error.1 h
  obtain ⟨hreported, rfl⟩ : e.fault.isReported = true ∧
      .inText .lexical e.fault.text (some source) e.position.line (some e.position.column) = d := by
    simpa [Failure.diagnostic?, Scan.Error.diagnostic?] using hd
  have houtcome := Scan.outcome_tokens source
  rw [he] at houtcome
  cases houtcome with
  | @fault ahead rest c tokens fault heq hpassed hfault =>
    have hno : NoToken ahead fault (c :: rest) := by
      cases hc : isNameChar c with
      | true => exact Scan.noToken_of_word hc hfault hreported fun _ => hpassed.not_isNameChar_last hc
      | false => exact Scan.noToken_of_character hc hfault
    have hc : c ≠ '\n' := by
      rintro rfl
      cases hfault.symm.trans (if_pos (by decide) : Scan.lexemeAt '\n' rest = .blank)
    refine ⟨rfl, _, ahead, c :: rest, tokens, fault, rfl, rfl, rfl, cutAt_placeBehind heq, ?_,
      fun t => Scan.before_of_mem_passed hpassed, hno⟩
    exact mapError_eq_ok.2 (Scan.tokens_before hpassed hc)

/-- A number glued to a name, on the line below a comment. -/
theorem firstFault_of_tokenize_glued : ∃ failure d,
    tokenize "a = 1 // 2x\n  12x" = .error failure ∧ failure.diagnostic? = some d ∧
      d.category = .lexical ∧ d.line = 2 ∧ d.column = some 3 ∧ ∃ ahead rest tokens fault,
        CutAt "a = 1 // 2x\n  12x" ⟨2, 3⟩ ahead rest ∧
        tokenize (String.ofList ahead) = .ok (tokens ++ [⟨.endOfInput, "", ⟨2, 3⟩⟩]) ∧
        NoToken ahead fault rest := by
  have h : tokenize "a = 1 // 2x\n  12x" =
      .error (.scan "a = 1 // 2x\n  12x" ⟨.gluedNumeral "12x", ⟨2, 3⟩⟩) := by rfl
  obtain ⟨hcategory, p, ahead, rest, tokens, fault, hline, hcolumn, -, hcut, htokens, -, hno⟩ :=
    firstFault_of_tokenize h rfl
  obtain rfl : p = ⟨2, 3⟩ := by
    obtain ⟨line, column⟩ := p
    rw [Position.mk.injEq]
    exact ⟨hline.symm, (Option.some.inj hcolumn).symm⟩
  exact ⟨_, _, h, rfl, hcategory, rfl, rfl, ahead, rest, tokens, fault, hcut, htokens, hno⟩

end TapeCompiler
