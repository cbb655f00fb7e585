import TapeCompiler.Proofs.Text.Characters
import TapeCompiler.Source.Token
/-!
# How a text splits into tokens

The lexical grammar, without a scanner: a source text is a row of tokens with gaps before, between
and behind them. A gap holds blanks and comments. A token is the longest name, number or sign at
its place (`Longest`), and its position counts the line feeds before it and the characters since the
last of them (`placeBehind`). The texts that split form the relation `Splits`.
-/
namespace TapeCompiler

open TapeCompiler.Text

/-! ## One token -/

/-- The signs, each with the kind of token that it is. -/
def signs : List (TokenKind × List Char) :=
  [(.equal, ['=', '=']), (.notEqual, ['!', '=']), (.and, ['&', '&']), (.assign, ['=']),
   (.openBrace, ['\x7b']), (.closeBrace, ['\x7d']), (.openParen, ['(']), (.closeParen, [')'])]

/-- What may be a token when `rest` stands behind it. A number fits into a byte, and nothing that
could go on with it as a name follows. -/
inductive Matches : TokenKind → List Char → List Char → Prop
  | name {word rest : List Char} : isName word = true → Matches .name word rest
  | number {word rest : List Char} : isDigits word = true → digitsValue word ≤ 255 →
      (∀ c, rest.head? = some c → isNameChar c = false) → Matches .number word rest
  | sign {kind : TokenKind} {word rest : List Char} : (kind, word) ∈ signs → Matches kind word rest

/-- What may be a token, while nothing longer may be one at the same place. -/
structure Longest (kind : TokenKind) (word rest : List Char) : Prop where
  fits : Matches kind word rest
  longest : ∀ (other : TokenKind) (word' rest' : List Char), word' ++ rest' = word ++ rest →
    Matches other word' rest' → word'.length ≤ word.length

/-! ## Gaps -/

/-- Blanks and comments before `rest`. A comment runs up to the end of its line, that is to the
first line feed or to the end of the text. -/
inductive Gap : List Char → List Char → Prop
  | nil {rest : List Char} : Gap [] rest
  | blank {c : Char} {gap rest : List Char} : isBlank c = true → Gap gap rest → Gap (c :: gap) rest
  | comment {text gap rest : List Char} : '\n' ∉ text →
      (∀ c, (gap ++ rest).head? = some c → c = '\n') → Gap gap rest →
      Gap ('/' :: '/' :: text ++ gap) rest

/-- The position of what follows a text from the start of the source: the line feeds in it begin
lines, and the characters behind the last of them are in columns of their own. -/
def placeBehind (text : List Char) : Position :=
  ⟨1 + text.count '\n', 1 + (text.reverse.takeWhile (· != '\n')).length⟩

/-- The text behind `before` splits into gaps and these tokens. -/
inductive Splits : List Char → List Char → List Token → Prop
  | done {before gap : List Char} : Gap gap [] → Splits before gap []
  | token {before gap word rest : List Char} {kind : TokenKind} {tokens : List Token} :
      Gap gap (word ++ rest) → Longest kind word rest → Splits (before ++ gap ++ word) rest tokens →
      Splits before (gap ++ word ++ rest)
        (⟨kind, String.ofList word, placeBehind (before ++ gap)⟩ :: tokens)

/-! ## Gaps before more -/

section

variable {before gap next rest : List Char} {tokens : List Token}

theorem Gap.append (h : Gap gap (next ++ rest)) (hnext : Gap next rest) :
    Gap (gap ++ next) rest := by
  generalize hfollow : next ++ rest = follow at h
  induction h with
  | nil => exact hnext
  | blank hblank _ ih => exact .blank hblank (ih hfollow)
  | comment htext hend _ ih =>
    subst hfollow
    rw [List.append_assoc]
    refine .comment htext ?_ (ih rfl)
    rwa [List.append_assoc]

theorem Splits.of_gap (hgap : Gap gap rest) (h : Splits (before ++ gap) rest tokens) :
    Splits before (gap ++ rest) tokens := by
  cases h with
  | done hnext =>
    rw [← List.append_nil rest] at hgap
    exact .done (hgap.append hnext)
  | @token _ next word rest _ _ hnext hlongest hrest =>
    rw [List.append_assoc] at hgap
    have hall := Splits.token (hgap.append hnext) hlongest (by simpa using hrest)
    simpa using hall

end

/-! ## Matches -/

section

variable {kind : TokenKind} {word rest : List Char}

/-- What may be a token begins with a character of its own. -/
theorem Matches.exists_cons (h : Matches kind word rest) : ∃ c more, word = c :: more := by
  refine List.exists_cons_of_ne_nil ?_
  cases h with
  | name hname => exact (isName_spec hname).1
  | number hdigits => exact (isDigits_spec hdigits).1
  | sign hsign =>
    have hall : ∀ pair ∈ signs, pair.2 ≠ [] := by decide
    exact hall _ hsign

/-- What may be a token is a name or a number, of characters of names throughout, or a sign. -/
theorem Matches.isNameChar_or_mem_signs (h : Matches kind word rest) :
    (∀ c ∈ word, isNameChar c = true) ∨ (kind, word) ∈ signs := by
  cases h with
  | name hname => exact .inl (isName_spec hname).2.1
  | number hdigits => exact .inl fun c hc => isNameChar_of_isDigit ((isDigits_spec hdigits).2 c hc)
  | sign hsign => exact .inr hsign

theorem not_isNameChar_of_mem_signs (h : (kind, word) ∈ signs) :
    ∀ d ∈ word, isNameChar d = false := by
  have hall : ∀ pair ∈ signs, pair.2.all (!isNameChar ·) = true := by decide
  intro d hd
  simpa using List.all_eq_true.1 (hall _ h) d hd

theorem kind_ne_number_of_mem_signs (h : (kind, word) ∈ signs) : kind ≠ .number := by
  have hall : ∀ pair ∈ signs, pair.1 ≠ .number := by decide
  exact hall _ h

theorem Matches.kind_ne_endOfInput (h : Matches kind word rest) : kind ≠ .endOfInput := by
  cases h with
  | name | number => decide
  | sign hsign =>
    have hall : ∀ pair ∈ signs, pair.1 ≠ .endOfInput := by decide
    exact hall _ hsign

theorem Matches.isDigits (h : Matches .number word rest) : isDigits word = true := by
  cases h with
  | number hdigits => exact hdigits
  | sign hsign => exact absurd rfl (kind_ne_number_of_mem_signs hsign)

/-- The kind of token that a text may be. -/
def kindOf (word : List Char) : TokenKind :=
  if isName word then .name
  else if isDigits word then .number
  else ((signs.find? (·.2 == word)).map Prod.fst).getD .unknown

/-- The text of a token tells its kind. -/
theorem Matches.kind_eq (h : Matches kind word rest) : kind = kindOf word := by
  cases h with
  | name hname => simp [kindOf, hname]
  | number hdigits =>
    have hname : isName word = false := by
      cases hname : isName word with
      | false => rfl
      | true =>
        rw [(isName_spec hname).2.2] at hdigits
        cases hdigits
    simp [kindOf, hname, hdigits]
  | sign hsign =>
    have hall : ∀ pair ∈ signs, pair.1 = kindOf pair.2 := by decide
    exact hall _ hsign

end

/-! ## Texts that end earlier -/

section

variable {kind : TokenKind} {word gap rest more : List Char}

theorem head?_append_of_head? {c : Char} (h : rest.head? = some c) :
    (rest ++ more).head? = some c := by
  rw [List.head?_append, h]
  rfl

theorem Matches.cut (h : Matches kind word (rest ++ more)) : Matches kind word rest := by
  cases h with
  | name hname => exact .name hname
  | number hdigits hvalue hrest =>
    exact .number hdigits hvalue fun c hc => hrest c (head?_append_of_head? hc)
  | sign hsign => exact .sign hsign

/-- Behind a token of digits there is no other digit. -/
theorem Matches.not_isDigit {d : Char} (h : Matches kind word (d :: rest))
    (hword : ∀ c ∈ word, c.isDigit = true) : d.isDigit = false := by
  obtain ⟨c, tail, rfl⟩ := h.exists_cons
  cases h with
  | name hname =>
    have hdigits : Text.isDigits (c :: tail) = true := List.all_eq_true.2 hword
    rw [(isName_spec hname).2.2] at hdigits
    cases hdigits
  | number _ _ hrest => exact isDigit_of_not_isNameChar (hrest d rfl)
  | sign hsign =>
    have hc := not_isNameChar_of_mem_signs hsign c List.mem_cons_self
    rw [isNameChar_of_isDigit (hword c List.mem_cons_self)] at hc
    cases hc

/-- The longest token at a place is so in every text that ends behind it. Only a number depends on
what follows it, and one that is longer because the text ends would begin with this token. -/
theorem Longest.cut (h : Longest kind word (rest ++ more)) : Longest kind word rest := by
  refine ⟨h.fits.cut, fun other word' rest' heq hmatch => ?_⟩
  have hwhole : word' ++ (rest' ++ more) = word ++ (rest ++ more) := by
    rw [← List.append_assoc, heq, List.append_assoc]
  cases hmatch with
  | name hname => exact h.longest .name word' _ hwhole (.name hname)
  | sign hsign => exact h.longest other word' _ hwhole (.sign hsign)
  | number hdigits =>
    rcases List.append_eq_append_iff.1 heq with ⟨longer, rfl, -⟩ | ⟨longer, rfl, rfl⟩
    · exact List.length_append ▸ Nat.le_add_right _ _
    cases longer with
    | nil => simp
    | cons d longer =>
      have hall := (isDigits_spec hdigits).2
      have hd := h.fits.not_isDigit fun c hc => hall c (List.mem_append_left _ hc)
      rw [hall d (by simp)] at hd
      cases hd

end

/-! ## Where a token ends -/

/-- The character is in no name and in no number, and no sign goes on with it. -/
structure Parts (c : Char) : Prop where
  name : isNameChar c = false
  sign : ∀ pair ∈ signs, c ∉ pair.2.tail

theorem parts_of_isBlank {c : Char} (h : isBlank c = true) : Parts c where
  name := by
    cases hc : isNameChar c with
    | false => rfl
    | true => simp [isBlank_of_isNameChar hc] at h
  sign := by
    have hall : ∀ pair ∈ signs, pair.2.tail.all fun d => !isBlank d := by decide
    intro pair hpair hmem
    have hblank := List.all_eq_true.1 (hall pair hpair) c hmem
    simp [h] at hblank

theorem parts_slash : Parts '/' := ⟨by decide, by decide⟩

/-- What may be a token before some text is the longest token before a character that ends it. -/
theorem longest_of_parts {kind : TokenKind} {word other rest : List Char}
    (h : Matches kind word other) (hrest : ∀ c, rest.head? = some c → Parts c) :
    Longest kind word rest := by
  have hfits : Matches kind word rest := by
    cases h with
    | name hname => exact .name hname
    | number hdigits hvalue _ => exact .number hdigits hvalue fun c hc => (hrest c hc).name
    | sign hsign => exact .sign hsign
  refine ⟨hfits, fun _ word' rest' heq hmatch => ?_⟩
  rcases List.append_eq_append_iff.1 heq with ⟨more, rfl, -⟩ | ⟨more, rfl, rfl⟩
  · simp
  cases more with
  | nil => simp
  | cons d more =>
    have hparts := hrest d rfl
    obtain ⟨c, tail, rfl⟩ := hfits.exists_cons
    have hmem : d ∈ tail ++ d :: more := by simp
    rcases hmatch.isNameChar_or_mem_signs with hall | hsign
    · exact absurd (hall d (List.mem_cons_of_mem _ hmem)) (by simp [hparts.name])
    · exact absurd hmem (hparts.sign _ hsign)

end TapeCompiler
