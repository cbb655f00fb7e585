import TapeCompiler.Proofs.Source.Scanning
import TapeCompiler.Proofs.Source.Splitting
/-!
# The longest token at a place

What the scanner finds at a place is found case by case (`lexemeAt_forms`), and it is the longest
token that the lexical grammar has there (`longest_of_lexemeAt`). The other way round the scanner
finds every longest token (`lexemeAt_of_longest`), except for a number with too many digits, which
it cannot read; no other fault goes unreported.
-/
namespace TapeCompiler

open TapeCompiler.Text

namespace Scan

/-! ## Numbers -/

theorem digitsValue_dropWhile_zero (word : List Char) :
    digitsValue (word.dropWhile (· == '0')) = digitsValue word := by
  induction word with
  | nil => rfl
  | cons c rest ih =>
    by_cases hc : c = '0'
    · subst hc
      rw [List.dropWhile_cons_of_pos (by decide), ih, digitsValue, digitsValue,
        Nat.ofDigitChars_cons]
      rfl
    · rw [List.dropWhile_cons_of_neg (by simpa using hc)]

theorem pow_length_le_digitsValue {c : Char} {rest : List Char} (hdigit : c.isDigit = true)
    (hc : c ≠ '0') : 10 ^ rest.length ≤ digitsValue (c :: rest) := by
  have hrange : 48 ≤ c.toNat ∧ c.toNat ≤ 57 := Char.isDigit_iff_toNat.1 hdigit
  have hne : c.toNat ≠ 48 := fun he => hc (Char.toNat_inj.1 he)
  have hzero : '0'.toNat = 48 := rfl
  rw [digitsValue, Nat.ofDigitChars_cons, Nat.ofDigitChars_eq_ofDigitChars_zero, hzero]
  have hpos : 1 ≤ 10 * 0 + (c.toNat - 48) := by omega
  calc 10 ^ rest.length = 10 ^ rest.length * 1 := (Nat.mul_one _).symm
    _ ≤ 10 ^ rest.length * (10 * 0 + (c.toNat - 48)) := Nat.mul_le_mul_left _ hpos
    _ ≤ _ := Nat.le_add_right _ _

/-- A number that fits into a byte has at most three digits that count. -/
theorem length_dropWhile_zero_le {word : List Char} (hdigits : ∀ c ∈ word, c.isDigit = true)
    (hvalue : digitsValue word ≤ 255) : (word.dropWhile (· == '0')).length ≤ 3 := by
  cases hword : word.dropWhile (· == '0') with
  | nil => simp
  | cons c rest =>
    have hmem : c ∈ word := (List.dropWhile_suffix _).subset (hword ▸ List.mem_cons_self)
    have hc : c ≠ '0' := by
      have hhead := List.head_dropWhile_not (p := (· == '0')) (l := word) (by simp [hword])
      simpa [hword] using hhead
    have hpow : 10 ^ rest.length ≤ digitsValue (c :: rest) :=
      pow_length_le_digitsValue (hdigits c hmem) hc
    rw [← hword, digitsValue_dropWhile_zero] at hpow
    have hlength : rest.length < 3 := by
      refine (Nat.pow_lt_pow_iff_right (a := 10) (by decide)).1 ?_
      omega
    exact hlength

/-- A run of digits that is in range because of its leading zeros, and too long to be read. -/
structure Unreadable (word : List Char) : Prop where
  digits : ∀ d ∈ word, d.isDigit = true
  long : digitLimit < word.length
  zeros : (word.dropWhile (· == '0')).length ≤ 3

theorem length_toDigits_maxLiteral : (Nat.toDigits 10 maxLiteral).length = 3 := by decide

/-- All that a word with a digit in front may be: a name glued to a number, a number too large or
too long, or a number. -/
theorem numeralLexeme_forms (word : List Char) :
    ((∃ c ∈ word, c.isDigit = false) ∧
      numeralLexeme word = .fault (.gluedNumeral (String.ofList word))) ∨
    ((∀ c ∈ word, c.isDigit = true) ∧ 255 < digitsValue word ∧
      numeralLexeme word = .fault (.outOfRange (String.ofList word))) ∨
    (Unreadable word ∧ numeralLexeme word = .fault (.unreadableNumeral (.tooLong word.length))) ∨
    ((∀ c ∈ word, c.isDigit = true) ∧ word.length ≤ digitLimit ∧ digitsValue word ≤ 255 ∧
      numeralLexeme word = .token .number word.length) := by
  by_cases hdigits : ∀ c ∈ word, c.isDigit = true
  swap
  · refine .inl ⟨by simpa using hdigits, if_pos ?_⟩
    simpa using hdigits
  rw [numeralLexeme, if_neg (by simpa using hdigits), length_toDigits_maxLiteral, readDigits]
  by_cases hzeros : (word.dropWhile (· == '0')).length > 3
  · have hvalue : 255 < digitsValue word :=
      Nat.lt_of_not_le fun hvalue => Nat.not_le.2 hzeros (length_dropWhile_zero_le hdigits hvalue)
    exact .inr (.inl ⟨hdigits, hvalue, if_pos hzeros⟩)
  rw [if_neg hzeros]
  by_cases hlength : word.length ≤ digitLimit
  · rw [if_pos hlength]
    by_cases hvalue : digitsValue word ≤ 255
    · exact .inr (.inr (.inr ⟨hdigits, hlength, hvalue, if_pos hvalue⟩))
    · exact .inr (.inl ⟨hdigits, Nat.lt_of_not_le hvalue, if_neg hvalue⟩)
  · rw [if_neg hlength]
    exact .inr (.inr (.inl ⟨⟨hdigits, Nat.lt_of_not_le hlength, Nat.le_of_not_lt hzeros⟩, rfl⟩))

theorem numeralLexeme_number {word : List Char} (hdigits : ∀ c ∈ word, c.isDigit = true)
    (hlength : word.length ≤ digitLimit) (hvalue : digitsValue word ≤ 255) :
    numeralLexeme word = .token .number word.length := by
  rcases numeralLexeme_forms word with ⟨⟨c, hc, hdigit⟩, -⟩ | ⟨-, hlarge, -⟩ | ⟨hunreadable, -⟩ |
    ⟨-, -, -, hnumber⟩
  · simp [hdigits c hc] at hdigit
  · omega
  · exact absurd hlength (Nat.not_le.2 hunreadable.long)
  · exact hnumber

/-! ## One place -/

section

variable {c : Char} {kind other : TokenKind} {next : Option Char} {word more rest : List Char}
  {length : Nat}

theorem length_le_takeWhile {p : Char → Bool} (h : ∀ c ∈ word, p c = true) :
    word.length ≤ ((word ++ rest).takeWhile p).length := by
  rw [List.takeWhile_append_of_pos h, List.length_append]
  exact Nat.le_add_right _ _

theorem takeWhile_append_eq {p : Char → Bool} (h : ∀ c ∈ word, p c = true)
    (hrest : ∀ c, rest.head? = some c → p c = false) : (word ++ rest).takeWhile p = word := by
  rw [List.takeWhile_append_of_pos h]
  cases rest with
  | nil => simp
  | cons c more => simp [hrest c rfl]

/-- A text is split behind the characters that it begins with. -/
theorem exists_takeWhile (p : Char → Bool) (text : List Char) :
    ∃ rest, text = text.takeWhile p ++ rest ∧ (∀ c ∈ text.takeWhile p, p c = true) ∧
      ∀ c, rest.head? = some c → p c = false := by
  refine ⟨text.dropWhile p, List.takeWhile_append_dropWhile.symm, ?_, fun c hc => ?_⟩
  · exact List.all_eq_true.1 List.all_takeWhile
  · have hnot := List.head?_dropWhile_not p text
    rw [hc] at hnot
    simpa using hnot

theorem singleton_prefix_toList {d : Char} : [d] <+: next.toList ↔ next = some d := by
  cases next with
  | none => simp
  | some e => simp [eq_comm]

/-- A sign is found when it stands there. -/
theorem exists_sign? (h : (kind, c :: more) ∈ signs) (hstarts : c :: more <+: c :: next.toList) :
    ∃ pair, sign? c next = some pair := by
  simp only [signs, List.mem_cons, Prod.mk.injEq, List.not_mem_nil, or_false] at h
  rcases h with ⟨-, rfl, rfl⟩ | ⟨-, rfl, rfl⟩ | ⟨-, rfl, rfl⟩ | ⟨-, rfl, rfl⟩ | ⟨-, rfl, rfl⟩ |
    ⟨-, rfl, rfl⟩ | ⟨-, rfl, rfl⟩ | ⟨-, rfl, rfl⟩ <;> unfold sign? <;> split <;>
      simp_all [singleton_prefix_toList]

/-- The sign that is found stands there, and no longer one does. -/
theorem sign?_spec (h : sign? c next = some (kind, length)) :
    ∃ word, (kind, word) ∈ signs ∧ word.length = length ∧ word <+: c :: next.toList ∧
      ∀ pair ∈ signs, pair.2 <+: c :: next.toList → pair.2.length ≤ length := by
  unfold sign? at h
  split at h <;> simp only [Option.some.injEq, Prod.mk.injEq, reduceCtorEq] at h
  all_goals
    obtain ⟨rfl, rfl⟩ := h
    simp_all [signs, singleton_prefix_toList]

theorem prefix_head (h : word <+: c :: rest) (hlength : word.length ≤ 2) :
    word <+: c :: rest.head?.toList := by
  have htake : (c :: rest).take 2 = c :: rest.head?.toList := by
    cases rest <;> rfl
  rw [List.prefix_iff_eq_take.1 h, ← htake]
  exact (List.take_prefix_take_left hlength)

theorem length_le_two (h : (kind, word) ∈ signs) : word.length ≤ 2 := by
  have hall : ∀ pair ∈ signs, pair.2.length ≤ 2 := by decide
  exact hall _ h

/-- No sign begins with a character of names. -/
theorem not_isNameChar_of_sign (h : (kind, word) ∈ signs) (hstarts : word <+: c :: rest) :
    isNameChar c = false := by
  obtain ⟨d, more, rfl⟩ := (Matches.sign h : Matches kind word rest).exists_cons
  obtain rfl : d = c := (List.cons_prefix_cons.1 hstarts).1
  exact not_isNameChar_of_mem_signs h d List.mem_cons_self

/-- A match that begins with a character of names consists of such characters. -/
theorem isNameChar_of_matches (h : Matches kind word rest) (hstarts : word <+: c :: more)
    (hc : isNameChar c = true) : ∀ d ∈ word, isNameChar d = true := by
  refine h.isNameChar_or_mem_signs.resolve_right fun hsign => ?_
  simp [not_isNameChar_of_sign hsign hstarts] at hc

theorem mem_signs_of_matches (h : Matches kind word rest) (hstarts : word <+: c :: more)
    (hc : isNameChar c = false) : (kind, word) ∈ signs := by
  obtain ⟨d, tail, rfl⟩ := h.exists_cons
  obtain rfl : d = c := (List.cons_prefix_cons.1 hstarts).1
  refine h.isNameChar_or_mem_signs.resolve_left fun hall => ?_
  simp [hall d List.mem_cons_self] at hc

theorem lexemeAt_word (hc : isNameChar c = true) :
    lexemeAt c rest = if c.isDigit then numeralLexeme ((c :: rest).takeWhile isNameChar)
      else .token .name ((c :: rest).takeWhile isNameChar).length := by
  have hblank := isBlank_of_isNameChar hc
  have hslash : c ≠ '/' := by
    rintro rfl
    revert hc
    decide
  have hsign : sign? c rest.head? = none := by
    cases hsign : sign? c rest.head? with
    | none => rfl
    | some pair =>
      obtain ⟨kind, length⟩ := pair
      obtain ⟨word, hword, -, hstarts, -⟩ := sign?_spec hsign
      simp [not_isNameChar_of_sign hword hstarts] at hc
  have hstart : c.isDigit = false → isNameStart c = true := by
    intro hdigit
    simpa [isNameChar, hdigit] using hc
  simp only [lexemeAt, hblank, hslash, hsign, false_and, if_false, Bool.false_eq_true]
  cases hdigit : c.isDigit with
  | true => simp
  | false => simp [hstart hdigit]

theorem lexemeAt_sign (hc : isNameChar c = false) (hblank : isBlank c = false)
    (hslash : ¬(c = '/' ∧ rest.head? = some '/')) :
    lexemeAt c rest = match sign? c rest.head? with
      | some (kind, length) => .token kind length
      | none => .fault (.unexpectedCharacter c) := by
  have hdigit := isDigit_of_not_isNameChar hc
  have hstart : isNameStart c = false := by simpa [isNameChar, hdigit] using hc
  cases hsign : sign? c rest.head? with
  | none => simp only [lexemeAt, hblank, hslash, hdigit, hstart, hsign, if_false, Bool.false_eq_true]
  | some pair => simp only [lexemeAt, hblank, hslash, hsign, if_false, Bool.false_eq_true]

/-- All that may begin at a place: a blank, a comment, a name or a number, a sign, or nothing. -/
theorem lexemeAt_forms (c : Char) (rest : List Char) :
    (isBlank c = true ∧ lexemeAt c rest = .blank) ∨
    (c = '/' ∧ rest.head? = some '/' ∧ lexemeAt c rest = .comment) ∨
    (isNameChar c = true ∧
      lexemeAt c rest = if c.isDigit then numeralLexeme ((c :: rest).takeWhile isNameChar)
        else .token .name ((c :: rest).takeWhile isNameChar).length) ∨
    (isNameChar c = false ∧ ∃ kind length, sign? c rest.head? = some (kind, length) ∧
      lexemeAt c rest = .token kind length) ∨
    lexemeAt c rest = .fault (.unexpectedCharacter c) := by
  cases hc : isNameChar c with
  | true => exact .inr (.inr (.inl ⟨rfl, lexemeAt_word hc⟩))
  | false =>
    by_cases hblank : isBlank c = true
    · exact .inl ⟨hblank, if_pos hblank⟩
    by_cases hslash : c = '/' ∧ rest.head? = some '/'
    · refine .inr (.inl ⟨hslash.1, hslash.2, ?_⟩)
      rw [lexemeAt, if_neg hblank, if_pos hslash]
    · have hlexeme := lexemeAt_sign hc (Bool.eq_false_iff.2 hblank) hslash
      refine .inr (.inr (.inr ?_))
      cases hsign : sign? c rest.head? with
      | none => exact .inr (by rw [hlexeme, hsign])
      | some pair => exact .inl ⟨rfl, pair.1, pair.2, rfl, by rw [hlexeme, hsign]⟩

/-- Where a token may stand the scanner finds one, unless it is a number that cannot be read. -/
theorem exists_token_of_matches (h : Matches kind (c :: word) rest)
    (hshort : kind = .number → (c :: word).length ≤ digitLimit) :
    ∃ other length, lexemeAt c (word ++ rest) = .token other length := by
  cases h with
  | name hname =>
    have hstart : isNameStart c = true := by
      simp only [isName, Bool.and_eq_true] at hname
      exact hname.1
    have hchar : isNameChar c = true := (isName_spec hname).2.1 c List.mem_cons_self
    rw [lexemeAt_word hchar, if_neg (by simp [isDigit_of_isNameStart hstart])]
    exact ⟨_, _, rfl⟩
  | number hdigits hvalue hrest =>
    obtain ⟨-, hall⟩ := isDigits_spec hdigits
    have hdigit := hall c List.mem_cons_self
    have hword : (c :: (word ++ rest)).takeWhile isNameChar = c :: word :=
      takeWhile_append_eq (fun d hd => isNameChar_of_isDigit (hall d hd)) hrest
    rw [lexemeAt_word (isNameChar_of_isDigit hdigit), if_pos hdigit, hword,
      numeralLexeme_number hall (hshort rfl) hvalue]
    exact ⟨_, _, rfl⟩
  | sign hsign =>
    have hstarts : c :: word <+: c :: (word ++ rest) := List.prefix_append (c :: word) rest
    have hhead := prefix_head hstarts (length_le_two hsign)
    obtain ⟨pair, hpair⟩ := exists_sign? hsign hhead
    have hblank : isBlank c = false ∧ c ≠ '/' := by
      have hall : ∀ pair ∈ signs, pair.2.all (fun d => !isBlank d && d != '/') = true := by decide
      simpa using List.all_eq_true.1 (hall _ hsign) c List.mem_cons_self
    rw [lexemeAt_sign (not_isNameChar_of_sign hsign hstarts) hblank.1 (by simp [hblank.2]), hpair]
    exact ⟨_, _, rfl⟩

theorem longest_of_word (hc : isNameChar c = true) (h : lexemeAt c rest = .token kind length) :
    ∃ word more, c :: rest = word ++ more ∧ word.length = length ∧ Longest kind word more := by
  obtain ⟨more, hsplit, hchars, hbehind⟩ := exists_takeWhile isNameChar (c :: rest)
  generalize hword : (c :: rest).takeWhile isNameChar = word at hsplit hchars
  obtain ⟨tail, rfl⟩ : ∃ tail, word = c :: tail :=
    ⟨_, by rw [← hword, List.takeWhile_cons_of_pos hc]⟩
  have hlongest : ∀ (other : TokenKind) (word' rest' : List Char),
      word' ++ rest' = c :: tail ++ more → Matches other word' rest' →
        word'.length ≤ (c :: tail).length := by
    intro other word' rest' heq hmatch
    rw [← hsplit] at heq
    have hle : word'.length ≤ ((word' ++ rest').takeWhile isNameChar).length :=
      length_le_takeWhile (isNameChar_of_matches hmatch ⟨rest', heq⟩ hc)
    rwa [heq, hword] at hle
  rw [lexemeAt_word hc, hword] at h
  refine ⟨c :: tail, more, hsplit, ?_⟩
  split at h
  · obtain ⟨rfl, rfl, hdigits, -, hvalue⟩ := numeralLexeme_token h
    have hall : isDigits (c :: tail) = true := by
      rw [isDigits, List.all_eq_true.2 hdigits]
      rfl
    exact ⟨rfl, .number hall hvalue hbehind, hlongest⟩
  · next hdigit =>
    cases h
    have hstart : isNameStart c = true := by simpa [isNameChar, hdigit] using hc
    have hname : isName (c :: tail) = true := by
      rw [isName, hstart, Bool.true_and, List.all_eq_true]
      exact fun d hd => hchars d (List.mem_cons_of_mem _ hd)
    exact ⟨rfl, .name hname, hlongest⟩

theorem longest_of_sign (hc : isNameChar c = false)
    (hsign : sign? c rest.head? = some (kind, length)) :
    ∃ word more, c :: rest = word ++ more ∧ word.length = length ∧ Longest kind word more := by
  obtain ⟨word, hword, hlength, hstarts, hmax⟩ := sign?_spec hsign
  have hhead : c :: rest.head?.toList <+: c :: rest := by
    cases rest with
    | nil => exact List.prefix_rfl
    | cons d more => exact List.prefix_append [c, d] more
  obtain ⟨more, hmore⟩ := hstarts.trans hhead
  refine ⟨word, more, hmore.symm, hlength, .sign hword, ?_⟩
  intro other word' rest' heq hmatch
  have hstarts' : word' <+: c :: rest := ⟨rest', heq.trans hmore⟩
  have hword' := mem_signs_of_matches hmatch hstarts' hc
  rw [hlength]
  exact hmax _ hword' (prefix_head hstarts' (length_le_two hword'))

/-- The token that the scanner finds is the longest one at its place. -/
theorem longest_of_lexemeAt (h : lexemeAt c rest = .token kind length) :
    ∃ word more, c :: rest = word ++ more ∧ word.length = length ∧ Longest kind word more := by
  rcases lexemeAt_forms c rest with ⟨-, hblank⟩ | ⟨-, -, hcomment⟩ | ⟨hc, -⟩ |
    ⟨hc, _, _, hsign, htoken⟩ | hfault
  · cases h.symm.trans hblank
  · cases h.symm.trans hcomment
  · exact longest_of_word hc h
  · cases h.symm.trans htoken
    exact longest_of_sign hc hsign
  · cases h.symm.trans hfault

/-- A number that the scanner finds can be read. -/
theorem length_le_of_lexemeAt (h : lexemeAt c rest = .token .number length) :
    length ≤ digitLimit := by
  rcases lexemeAt_forms c rest with ⟨-, hblank⟩ | ⟨-, -, hcomment⟩ | ⟨-, hword⟩ |
    ⟨-, _, _, hsign, htoken⟩ | hfault
  · cases h.symm.trans hblank
  · cases h.symm.trans hcomment
  · rw [hword] at h
    split at h
    · obtain ⟨-, rfl, -, hlength, -⟩ := numeralLexeme_token h
      exact hlength
    · cases h
  · cases h.symm.trans htoken
    exact absurd rfl (sign?_kind hsign).2
  · cases h.symm.trans hfault

/-- The scanner finds the longest token at a place, unless it is a number that cannot be read. -/
theorem lexemeAt_of_longest (h : Longest kind (c :: word) rest)
    (hshort : kind = .number → (c :: word).length ≤ digitLimit) :
    lexemeAt c (word ++ rest) = .token kind (word.length + 1) := by
  obtain ⟨other, length, hlexeme⟩ := exists_token_of_matches h.fits hshort
  obtain ⟨word', more, heq, hlength, hlongest⟩ := longest_of_lexemeAt hlexeme
  have hle := h.longest other word' more heq.symm hlongest.fits
  have hge := hlongest.longest kind (c :: word) rest heq h.fits
  obtain ⟨rfl, rfl⟩ := List.append_inj heq (Nat.le_antisymm hge hle)
  rw [hlexeme, hlongest.fits.kind_eq, h.fits.kind_eq, ← hlength, List.length_cons]

/-- What the scan does at a place. -/
theorem lexemeAt_cases (c : Char) (rest : List Char) :
    isBlank c = true ∨ (c = '/' ∧ rest.head? = some '/') ∨
      (∃ kind length, lexemeAt c rest = .token kind length) ∨
      ∃ fault, lexemeAt c rest = .fault fault := by
  rcases lexemeAt_forms c rest with ⟨hblank, -⟩ | ⟨hc, hslash, -⟩ | ⟨-, hword⟩ |
    ⟨-, _, _, -, htoken⟩ | hfault
  · exact .inl hblank
  · exact .inr (.inl ⟨hc, hslash⟩)
  · rw [hword]
    split
    · rcases numeralLexeme_forms ((c :: rest).takeWhile isNameChar) with ⟨-, hnumeral⟩ |
        ⟨-, -, hnumeral⟩ | ⟨-, hnumeral⟩ | ⟨-, -, -, hnumeral⟩
      · exact .inr (.inr (.inr ⟨_, hnumeral⟩))
      · exact .inr (.inr (.inr ⟨_, hnumeral⟩))
      · exact .inr (.inr (.inr ⟨_, hnumeral⟩))
      · exact .inr (.inr (.inl ⟨_, _, hnumeral⟩))
    · exact .inr (.inr (.inl ⟨_, _, rfl⟩))
  · exact .inr (.inr (.inl ⟨_, _, htoken⟩))
  · exact .inr (.inr (.inr ⟨_, hfault⟩))

/-! ## Numerals that cannot be read -/

theorem Unreadable.numeralLexeme_eq (h : Unreadable word) :
    numeralLexeme word = .fault (.unreadableNumeral (.tooLong word.length)) := by
  rw [numeralLexeme, if_neg (by simpa using h.digits), length_toDigits_maxLiteral,
    if_neg (Nat.not_lt.2 h.zeros), readDigits, if_neg (Nat.not_le.2 h.long)]

/-- A fault that is not reported is a numeral that cannot be read. -/
theorem unreadable_of_lexemeAt {fault : Fault} (h : lexemeAt c rest = .fault fault)
    (hreported : fault.isReported = false) : ∃ word more, c :: rest = word ++ more ∧
      Unreadable word ∧ ∀ d, more.head? = some d → isNameChar d = false := by
  rcases lexemeAt_forms c rest with ⟨-, hblank⟩ | ⟨-, -, hcomment⟩ | ⟨-, hword⟩ |
    ⟨-, _, _, -, htoken⟩ | hfault
  · cases h.symm.trans hblank
  · cases h.symm.trans hcomment
  · rw [hword] at h
    split at h
    · obtain ⟨more, hsplit, -, hbehind⟩ := exists_takeWhile isNameChar (c :: rest)
      refine ⟨_, more, hsplit, ?_, hbehind⟩
      rcases numeralLexeme_forms ((c :: rest).takeWhile isNameChar) with ⟨-, hnumeral⟩ |
        ⟨-, -, hnumeral⟩ | ⟨hunreadable, -⟩ | ⟨-, -, -, hnumeral⟩
      · cases h.symm.trans hnumeral
        cases hreported
      · cases h.symm.trans hnumeral
        cases hreported
      · exact hunreadable
      · cases h.symm.trans hnumeral
    · cases h
  · cases h.symm.trans htoken
  · cases h.symm.trans hfault
    cases hreported

theorem Unreadable.lexemeAt_eq (h : Unreadable (c :: word))
    (hrest : ∀ d, rest.head? = some d → isNameChar d = false) :
    lexemeAt c (word ++ rest) = .fault (.unreadableNumeral (.tooLong (c :: word).length)) := by
  have hdigit : c.isDigit = true := h.digits c List.mem_cons_self
  have hword : (c :: (word ++ rest)).takeWhile isNameChar = c :: word :=
    takeWhile_append_eq (fun d hd => isNameChar_of_isDigit (h.digits d hd)) hrest
  rw [lexemeAt_word (isNameChar_of_isDigit hdigit), if_pos hdigit, hword, h.numeralLexeme_eq]

end

end Scan

end TapeCompiler
