import TapeCompiler.Proofs.Asm.Counts
import TapeCompiler.Proofs.Correctness
import TapeCompiler.Proofs.Source.FirstMisfit
import TapeCompiler.Proofs.Source.Tokenizing
/-!
# Failures that are not reported

Two failures reach the user as they are: a numeral of a program that its leading zeros make too long
to be read, and a number in a text of instructions that is too large for a count. They are met just
where everything before them is accepted; every other failure is reported
(`compile_unreported_iff`).
-/
namespace TapeCompiler

open TapeCompiler.Text

/-- Behind tokens that are accepted stands a numeral that cannot be read. -/
def StopsAtNumeral (source : String) : Prop :=
  ∃ ahead word rest tokens, source.toList = ahead ++ word ++ rest ∧
    Scan.Passed [] ahead (word ++ rest) tokens ∧ Scan.Unreadable word ∧
    ∀ c, rest.head? = some c → isNameChar c = false

section

variable {source : String} {failure : Failure} {annotate : Bool}

/-! ## Programs -/

theorem unreported_tokens_iff :
    (∃ e, Scan.tokens source = .error e ∧ e.fault.isReported = false) ↔ StopsAtNumeral source := by
  constructor
  · rintro ⟨e, h, hreported⟩
    have houtcome := Scan.outcome_tokens source
    rw [h] at houtcome
    cases houtcome with
    | @fault ahead rest c tokens fault heq hpassed hfault =>
      obtain ⟨word, more, hword, hunreadable, hbehind⟩ :=
        Scan.unreadable_of_lexemeAt hfault hreported
      rw [hword] at heq hpassed
      rw [← List.append_assoc] at heq
      exact ⟨ahead, word, more, tokens, heq, hpassed, hunreadable, hbehind⟩
  · rintro ⟨ahead, word, rest, tokens, heq, hpassed, hunreadable, hbehind⟩
    cases word with
    | nil => exact absurd hunreadable.long (Nat.not_lt_zero _)
    | cons c more =>
      have hscan := Scan.scanFrom_passed hpassed (List.cons_ne_nil c (more ++ rest))
      rw [List.cons_append, Scan.scanFrom, hunreadable.lexemeAt_eq hbehind] at hscan
      rw [← List.cons_append, ← List.append_assoc, ← heq] at hscan
      exact ⟨_, hscan, rfl⟩

theorem isReported_scan (e : Scan.Error) :
    (Failure.scan source e).isReported = e.fault.isReported := by
  show (Scan.Error.diagnostic? source e).isSome = _
  rw [Scan.Error.diagnostic?]
  cases e.fault.isReported <;> rfl

/-- The tokens of a text are parsed, or the failure is reported. -/
theorem isReported_of_parse {tokens : List Token} (h : Scan.tokens source = .ok tokens)
    (hparse : parse source = .error failure) : failure.isReported = true := by
  rw [parse_of_tokens h, mapError_eq_error] at hparse
  obtain ⟨e, he, rfl⟩ := hparse
  obtain ⟨x, t, rfl⟩ := (Scan.proper_of_tokens h).unexpected he
  rfl

/-- A program of a text is compiled, or the failure is reported. -/
theorem isReported_of_compile {program : Block} (hlength : source.length < Asm.countLimit)
    (hparse : parse source = .ok program)
    (h : compile ⟨annotate, false⟩ source = .error failure) : failure.isReported = true := by
  cases hnames : reservedName? program with
  | none =>
    obtain ⟨compiled, hcompiled⟩ := exists_compiled hparse hnames hlength
    cases hcompiled.symm.trans h
  | some name =>
    cases (compile_of_reserved hparse hnames).symm.trans h
    rfl

theorem unreported_program_iff (hlength : source.length < Asm.countLimit) :
    (∃ failure, compile ⟨annotate, false⟩ source = .error failure ∧ failure.isReported = false) ↔
      StopsAtNumeral source := by
  rw [← unreported_tokens_iff]
  constructor
  · rintro ⟨failure, h, hreported⟩
    cases hscan : Scan.tokens source with
    | error e =>
      have hcompile : compile ⟨annotate, false⟩ source = .error (.scan source e) :=
        bind_eq_error.2 (.inl (parse_of_tokens_error hscan))
      cases hcompile.symm.trans h
      exact ⟨e, rfl, isReported_scan e ▸ hreported⟩
    | ok tokens =>
      cases hparse : parse source with
      | error other =>
        have hcompile : compile ⟨annotate, false⟩ source = .error other :=
          bind_eq_error.2 (.inl hparse)
        cases hcompile.symm.trans h
        cases hreported.symm.trans (isReported_of_parse hscan hparse)
      | ok program => cases hreported.symm.trans (isReported_of_compile hlength hparse h)
  · rintro ⟨e, hscan, hreported⟩
    refine ⟨.scan source e, ?_, (isReported_scan e).trans hreported⟩
    exact bind_eq_error.2 (.inl (parse_of_tokens_error hscan))

/-! ## Texts of instructions -/

theorem isReported_assemble {text : Option String} (e : Asm.Error) :
    (Failure.assemble text e).isReported = false ↔ e.fault = .countTooLarge := by
  obtain ⟨line, fault⟩ := e
  cases fault <;> simp [Failure.isReported, Failure.diagnostic?, Asm.Error.diagnostic?,
    Asm.Fault.category?]

theorem unreported_text_iff :
    (∃ failure, compile ⟨annotate, true⟩ source = .error failure ∧ failure.isReported = false) ↔
      ∃ expanded, Asm.readExpanded [] source = .ok expanded ∧ Asm.StopsAtCount expanded := by
  rw [← Asm.assemble_countTooLarge_iff]
  constructor
  · rintro ⟨failure, h, hreported⟩
    rcases bind_eq_error.1 h with h | ⟨_, -, h⟩
    · obtain ⟨⟨line, fault⟩, he, rfl⟩ := mapError_eq_error.1 h
      obtain rfl := (isReported_assemble _).1 hreported
      exact ⟨line, he⟩
    · cases h
  · rintro ⟨line, h⟩
    refine ⟨.assemble (some source) ⟨line, .countTooLarge⟩, ?_, (isReported_assemble _).2 rfl⟩
    exact bind_eq_error.2 (.inl (mapError_eq_error.2 ⟨_, h, rfl⟩))

end

/-- **Which failures are not reported.** A text, unless it is longer than any count, fails without a
report in two cases. In a program, behind tokens that are accepted, there is a numeral that is in
range because of its leading zeros and too long to be read. In a text of instructions, behind others
that are encoded, there is one with a number that is too large for a count. -/
theorem compile_unreported_iff (options : Options) {source : String}
    (hlength : source.length < Asm.countLimit) :
    (∃ failure, compile options source = .error failure ∧ failure.isReported = false) ↔
      if options.assembly then
        ∃ expanded, Asm.readExpanded [] source = .ok expanded ∧ Asm.StopsAtCount expanded
      else StopsAtNumeral source := by
  obtain ⟨annotate, assembly⟩ := options
  cases assembly with
  | true => exact unreported_text_iff
  | false => exact unreported_program_iff hlength

/-- A number that no count can be, in a text of one instruction. -/
theorem compile_unreported_iff_count :
    ∃ failure, compile ⟨false, true⟩ "rs 9223372036854775808" = .error failure ∧
      failure.isReported = false := by
  refine (compile_unreported_iff ⟨false, true⟩ (by decide)).2
    ⟨[(1, .right (.number 9223372036854775808))], rfl, [], 1, _, [], rfl, by simp, ?_, ?_⟩
  · exact List.forall_mem_singleton.2 (Int.natCast_nonneg 9223372036854775808)
  · exact ⟨_, List.mem_singleton_self _, fun h => absurd h.2 (by decide)⟩

theorem unreadable_zeros : Scan.Unreadable (List.replicate 4301 '0') where
  digits := fun d hd => by rw [List.eq_of_mem_replicate hd]; decide
  long := by
    rw [List.length_replicate]
    decide
  zeros := by
    rw [List.dropWhile_replicate]
    exact Nat.zero_le 3

/-- A cell is set to zero, written with more digits than can be read. -/
theorem exists_unreported_numeral :
    ∃ failure, compile ⟨false, false⟩ ("x = " ++ String.ofList (List.replicate 4301 '0')) =
      .error failure ∧ failure.isReported = false := by
  have hunreadable := unreadable_zeros
  have hlength : ("x = " ++ String.ofList (List.replicate 4301 '0')).length < Asm.countLimit := by
    simp only [String.length_append, String.length_ofList, List.length_replicate]
    decide
  generalize List.replicate 4301 '0' = zeros at hunreadable hlength
  have hname : Longest .name ['x'] ([' ', '=', ' '] ++ zeros) :=
    @longest_of_parts _ _ [] _ (.name (by decide)) fun c hc => by
      cases hc
      exact parts_of_isBlank (by decide)
  have hsign : Longest .assign ['='] ([' '] ++ zeros) :=
    @longest_of_parts _ _ [] _ (.sign (by decide)) fun c hc => by
      cases hc
      exact parts_of_isBlank (by decide)
  have hpassed : Scan.Passed [] (['x'] ++ ([' '] ++ (['='] ++ ([' '] ++ [])))) (zeros ++ []) _ :=
    .token (by simpa using hname) (by simp) <| .gap (.blank (by decide) .nil) <|
      .token (by simpa using hsign) (by simp) <| .gap (.blank (by decide) .nil) .nil
  refine (unreported_program_iff hlength).2 ⟨_, zeros, [], _, ?_, hpassed, hunreadable, by simp⟩
  simp

end TapeCompiler
