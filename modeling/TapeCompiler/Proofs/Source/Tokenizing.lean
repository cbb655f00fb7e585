import TapeCompiler.Compile
import TapeCompiler.Proofs.Source.Derivation
import TapeCompiler.Proofs.Source.Outcome
/-!
# The scanner is the lexical grammar

Place by place the scanner takes what the lexical grammar takes: the longest token, or a piece of
the gap before it. So it gives back the tokens into which a text splits, with their positions, and
refuses a text that does not split (`tokenize_splits`).
-/
namespace TapeCompiler

open TapeCompiler.Text

namespace Scan

section

variable {before text : List Char} {tokens : List Token}

/-- A text that splits is scanned into the tokens into which it splits. -/
theorem scanFrom_of_splits (h : Splits before text tokens)
    (hshort : ∀ t ∈ tokens, t.kind = .number → t.text.length ≤ digitLimit) :
    ∃ p, scanFrom .between (placeBehind before) text = .ok (tokens ++ [⟨.endOfInput, "", p⟩]) := by
  induction h with
  | @done before gap hgap =>
    obtain ⟨p, hscan, -⟩ := scanFrom_gap hgap before
    rw [List.append_nil] at hscan
    exact ⟨p, by rw [hscan, scanFrom]; rfl⟩
  | @token before gap word rest kind tokens hgap hlongest _ ih =>
    rw [List.forall_mem_cons] at hshort
    obtain ⟨p, hrest⟩ := ih hshort.2
    obtain ⟨q, hscan, hq⟩ := scanFrom_gap hgap before
    have hne : word ++ rest ≠ [] := by
      obtain ⟨c, more, rfl⟩ := hlongest.fits.exists_cons
      exact List.cons_ne_nil _ _
    have hword : kind = .number → word.length ≤ digitLimit := by
      intro hkind
      simpa using hshort.1 hkind
    refine ⟨p, ?_⟩
    rw [List.append_assoc, hscan, hq hne, scanFrom_longest hlongest hword, hrest]
    rfl

/-- No run of digits in the text is too long to be read. -/
def ShortRuns (text : List Char) : Prop :=
  ∀ run, run <:+: text → (∀ c ∈ run, c.isDigit = true) → run.length ≤ digitLimit

theorem ShortRuns.of_suffix {rest : List Char} (h : ShortRuns text) (hsuffix : rest <:+ text) :
    ShortRuns rest := by
  intro run hrun
  exact h run (hrun.trans hsuffix.isInfix)

theorem ShortRuns.length_le {kind : TokenKind} {word rest : List Char}
    (h : ShortRuns (word ++ rest)) (hword : Matches kind word rest) (hkind : kind = .number) :
    word.length ≤ digitLimit := by
  subst hkind
  exact h word (List.prefix_append word rest).isInfix (isDigits_spec hword.isDigits).2

/-- A text splits, or the scan of it ends with a fault that is reported. -/
def SplitsOrFails (before text : List Char) : Prop :=
  (∃ tokens, Splits before text tokens) ∨
    ∃ e, scanFrom .between (placeBehind before) text = .error e ∧ e.fault.isReported = true

theorem splitsOrFails (hshort : ShortRuns text) (before : List Char) :
    SplitsOrFails before text := by
  have houtcome := outcome before text
  unfold SplitsOrFails
  generalize scanFrom .between (placeBehind before) text = result at houtcome
  cases houtcome with
  | tokens heq hpassed hend => exact .inl ⟨_, heq ▸ splits_of_passed hpassed hend.gap⟩
  | @fault ahead rest c tokens fault heq _ hfault =>
    refine .inr ⟨_, rfl, ?_⟩
    rw [← Bool.not_eq_false]
    intro hreported
    obtain ⟨word, more, hword, hunreadable, -⟩ := unreadable_of_lexemeAt hfault hreported
    have hinfix : word <:+: text := ⟨ahead, more, by rw [heq, hword, List.append_assoc]⟩
    exact absurd (hshort word hinfix hunreadable.digits) (Nat.not_le.2 hunreadable.long)

end

/-- The tokens of a text are such as the grammar deals with. -/
theorem proper_of_tokens {source : String} {tokens : List Token}
    (h : Scan.tokens source = .ok tokens) : Grammar.Proper tokens := by
  have houtcome := outcome_tokens source
  rw [h] at houtcome
  cases houtcome with
  | @tokens ahead rest tokens _ hpassed _ =>
    refine ⟨by simp, fun t ht => ?_, fun t ht hkind => ?_⟩
    · rw [List.dropLast_concat] at ht
      obtain ⟨-, word, more, -, hlongest, -⟩ := place_of_mem_passed hpassed ht
      exact hlongest.fits.kind_ne_endOfInput
    · rcases List.mem_append.1 ht with ht | ht
      · obtain ⟨-, word, more, -, hlongest, hshort, htext, -⟩ := place_of_mem_passed hpassed ht
        rw [htext, String.toList_ofList, String.length_ofList]
        rw [hkind] at hlongest
        exact ⟨hlongest.fits.isDigits, hshort hkind⟩
      · rw [List.mem_singleton.1 ht] at hkind
        cases hkind

theorem ShortRuns.of_splits {before text : List Char} {tokens : List Token}
    (hshort : ShortRuns text) (h : Splits before text tokens) :
    ∀ t ∈ tokens, t.kind = .number → t.text.length ≤ digitLimit := by
  induction h with
  | done => exact fun t ht => absurd ht List.not_mem_nil
  | @token before gap word rest kind tokens _ hlongest _ ih =>
    refine List.forall_mem_cons.2 ⟨fun hkind => ?_, ih (hshort.of_suffix ?_)⟩
    · rw [List.append_assoc] at hshort
      have hword := hshort.of_suffix (List.suffix_append gap (word ++ rest))
      rw [String.length_ofList]
      exact hword.length_le hlongest.fits hkind
    · exact List.suffix_append (gap ++ word) rest

theorem shortRuns_of_length_le {text : List Char} (h : text.length ≤ digitLimit) :
    ShortRuns text := by
  intro run hrun _
  exact Nat.le_trans hrun.length_le h

end Scan

theorem parse_of_tokens {source : String} {tokens : List Token}
    (h : Scan.tokens source = .ok tokens) :
    parse source = (Grammar.parseTokens tokens).mapError (.parse source) := by
  rw [parse, tokenize, h]
  rfl

theorem parse_of_tokens_error {source : String} {e : Scan.Error}
    (h : Scan.tokens source = .error e) : parse source = .error (.scan source e) := by
  rw [parse, tokenize, h]
  rfl

/-- **The tokenizer is the lexical grammar.** As long as no run of digits is too long to be read, a
source text is tokenized exactly when it splits into gaps and longest tokens, each with its true
position. The result is these tokens and the end of the input behind them; a text that does not
split is refused with a lexical error. -/
theorem tokenize_splits {source : String} (hshort : Scan.ShortRuns source.toList) :
    (∀ result, tokenize source = .ok result → ∃ tokens p,
      result = tokens ++ [⟨.endOfInput, "", p⟩] ∧ Splits [] source.toList tokens) ∧
    (∀ tokens, Splits [] source.toList tokens →
      ∃ p, tokenize source = .ok (tokens ++ [⟨.endOfInput, "", p⟩])) ∧
    ((¬∃ tokens, Splits [] source.toList tokens) → ∃ e diagnostic,
      tokenize source = .error (.scan source e) ∧
        (Failure.scan source e).diagnostic? = some diagnostic ∧
        diagnostic.category = .lexical) := by
  have hstart : Scan.tokens source = Scan.scanFrom .between (placeBehind []) source.toList := rfl
  have hcomplete : ∀ tokens, Splits [] source.toList tokens →
      ∃ p, tokenize source = .ok (tokens ++ [⟨.endOfInput, "", p⟩]) := by
    intro tokens hsplits
    obtain ⟨p, hscan⟩ := Scan.scanFrom_of_splits hsplits (hshort.of_splits hsplits)
    exact ⟨p, mapError_eq_ok.2 (hstart.trans hscan)⟩
  have hfails : (¬∃ tokens, Splits [] source.toList tokens) →
      ∃ e, tokenize source = .error (.scan source e) ∧ e.fault.isReported = true := by
    intro hnone
    obtain ⟨e, hscan, hreported⟩ := (Scan.splitsOrFails hshort []).resolve_left hnone
    exact ⟨e, mapError_eq_error.2 ⟨e, hstart.trans hscan, rfl⟩, hreported⟩
  refine ⟨fun result hresult => ?_, hcomplete, fun hnone => ?_⟩
  · by_cases hsplits : ∃ tokens, Splits [] source.toList tokens
    · obtain ⟨tokens, hsplits⟩ := hsplits
      obtain ⟨p, htokens⟩ := hcomplete tokens hsplits
      exact ⟨tokens, p, Except.ok.inj (hresult.symm.trans htokens), hsplits⟩
    · obtain ⟨e, herror, -⟩ := hfails hsplits
      cases hresult.symm.trans herror
  · obtain ⟨e, herror, hreported⟩ := hfails hnone
    exact ⟨e, _, herror, if_pos hreported, rfl⟩

/-- A comment that looks like a sign, a line that ends with a carriage return, and leading zeros. -/
theorem tokenize_splits_comment :
    Scan.ShortRuns "ab1//=\r\n &&007\x7b".toList ∧
    Splits [] "ab1//=\r\n &&007\x7b".toList
      [⟨.name, "ab1", ⟨1, 1⟩⟩, ⟨.and, "&&", ⟨2, 2⟩⟩, ⟨.number, "007", ⟨2, 4⟩⟩,
        ⟨.openBrace, "\x7b", ⟨2, 7⟩⟩] := by
  have hshort : Scan.ShortRuns "ab1//=\r\n &&007\x7b".toList :=
    Scan.shortRuns_of_length_le (by decide)
  have htokens : tokenize "ab1//=\r\n &&007\x7b" = .ok ([⟨.name, "ab1", ⟨1, 1⟩⟩,
      ⟨.and, "&&", ⟨2, 2⟩⟩, ⟨.number, "007", ⟨2, 4⟩⟩, ⟨.openBrace, "\x7b", ⟨2, 7⟩⟩] ++
        [⟨.endOfInput, "", ⟨2, 8⟩⟩]) := by
    rfl
  obtain ⟨tokens, p, heq, hsplits⟩ := (tokenize_splits hshort).1 _ htokens
  rw [List.append_inj_left' heq rfl]
  exact ⟨hshort, hsplits⟩

end TapeCompiler
