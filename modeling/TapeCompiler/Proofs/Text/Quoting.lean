import TapeCompiler.Text.Quoted
/-!
# Forms of quoted characters

Between quotes a printable character stands for itself. All others are escaped: a backslash comes
first, then a letter or a sign, and behind a letter for a width a hexadecimal number
(`quotedForm_quotedChar`). So quoting makes no blanks, and no line feed is left.
-/
namespace TapeCompiler.Text

def hexDigits : List Char := "0123456789abcdef".toList

/-- What may stand for `c` between two `mark`s. -/
inductive QuotedForm (mark c : Char) : List Char → Prop
  | itself (hprintable : isPrintable c = true) : QuotedForm mark c [c]
  | sign (s : Char) (hsign : s ∈ [mark, '\\', 'n', 'r', 't']) : QuotedForm mark c ['\\', s]
  | number (width d : Char) (digits : List Char) (hwidth : width ∈ ['x', 'u', 'U'])
    (hdigits : ∀ digit ∈ d :: digits, digit ∈ hexDigits) :
    QuotedForm mark c ('\\' :: width :: d :: digits)

theorem mem_hexDigits_of_mem_toDigits {n : Nat} {c : Char} (h : c ∈ Nat.toDigits 16 n) :
    c ∈ hexDigits := by
  have hdigit : ∀ d < 16, d.digitChar ∈ hexDigits := by decide
  induction n using Nat.strongRecOn with
  | ind n ih =>
    rw [Nat.toDigits_eq_if (by decide)] at h
    by_cases hn : n < 16
    · rw [if_pos hn, List.mem_singleton] at h
      exact h ▸ hdigit n hn
    · rw [if_neg hn, List.mem_append, List.mem_singleton] at h
      rcases h with h | rfl
      · exact ih (n / 16) (by omega) h
      · exact hdigit (n % 16) (Nat.mod_lt n (by decide))

theorem exists_hexadecimal_eq_cons (width n : Nat) : ∃ d digits,
    hexadecimal width n = d :: digits ∧ ∀ digit ∈ d :: digits, digit ∈ hexDigits := by
  have hall : ∀ digit ∈ hexadecimal width n, digit ∈ hexDigits := by
    intro digit hmem
    rw [hexadecimal, List.leftpad, List.mem_append] at hmem
    rcases hmem with hmem | hmem
    · rw [List.eq_of_mem_replicate hmem]
      decide
    · exact mem_hexDigits_of_mem_toDigits hmem
  have hne : hexadecimal width n ≠ [] := by
    rw [hexadecimal, List.leftpad]
    exact List.append_ne_nil_of_right_ne_nil _ Nat.toDigits_ne_nil
  obtain ⟨d, digits, heq⟩ := List.exists_cons_of_ne_nil hne
  exact ⟨d, digits, heq, heq ▸ hall⟩

theorem quotedForm_numberedEscape (mark c : Char) : QuotedForm mark c (numberedEscape c) := by
  unfold numberedEscape
  split
  · obtain ⟨d, digits, heq, hall⟩ := exists_hexadecimal_eq_cons 2 c.toNat
    rw [heq]
    exact .number 'x' d digits (by decide) hall
  split
  · obtain ⟨d, digits, heq, hall⟩ := exists_hexadecimal_eq_cons 4 c.toNat
    rw [heq]
    exact .number 'u' d digits (by decide) hall
  · obtain ⟨d, digits, heq, hall⟩ := exists_hexadecimal_eq_cons 8 c.toNat
    rw [heq]
    exact .number 'U' d digits (by decide) hall

theorem quotedForm_quotedChar (mark c : Char) : QuotedForm mark c (quotedChar mark c) := by
  unfold quotedChar
  split
  · next h =>
    refine .sign c ?_
    rcases h with rfl | rfl <;> simp
  split
  · exact .sign 'n' (by simp)
  split
  · exact .sign 'r' (by simp)
  split
  · exact .sign 't' (by simp)
  split
  · next h => exact .itself h
  · exact quotedForm_numberedEscape mark c

/-- A graphic character other than the mark and the backslash stands for itself. -/
theorem quotedChar_eq_self {mark c : Char} (hlow : 0x20 ≤ c.toNat) (hhigh : c.toNat ≤ 0x7E)
    (hmark : c ≠ mark) (hbackslash : c ≠ '\\') : quotedChar mark c = [c] := by
  have hne : ∀ d : Char, d.toNat < 0x20 → c ≠ d := by
    rintro d hd rfl
    omega
  rw [quotedChar, if_neg (not_or.2 ⟨hmark, hbackslash⟩), if_neg (hne '\n' (by decide)),
    if_neg (hne '\r' (by decide)), if_neg (hne '\t' (by decide)), if_pos]
  simp [isPrintable, hlow, hhigh]

theorem quoteMark_eq (text : List Char) : quoteMark text = '\'' ∨ quoteMark text = '"' := by
  unfold quoteMark
  split
  · exact .inr rfl
  · exact .inl rfl

section

variable {mark c x : Char} {word : List Char}

theorem mem_of_mem_quotedChar (hmark : x ≠ mark)
    (hx : x ∉ '\\' :: 'n' :: 'r' :: 't' :: 'x' :: 'u' :: 'U' :: hexDigits)
    (h : x ∈ quotedChar mark c) : x = c ∧ isPrintable c = true := by
  simp only [List.mem_cons, not_or] at hx
  obtain ⟨hbackslash, hn, hr, ht, hwidthx, hu, hU, hhex⟩ := hx
  have hform := quotedForm_quotedChar mark c
  generalize quotedChar mark c = form at h hform
  cases hform with
  | itself hprintable => exact ⟨List.mem_singleton.1 h, hprintable⟩
  | sign s hsign =>
    rcases List.mem_cons.1 h with rfl | h
    · exact absurd rfl hbackslash
    · obtain rfl := List.mem_singleton.1 h
      simp [hmark, hbackslash, hn, hr, ht] at hsign
  | number width d digits hwidth hdigits =>
    rcases List.mem_cons.1 h with rfl | h
    · exact absurd rfl hbackslash
    rcases List.mem_cons.1 h with rfl | h
    · simp [hwidthx, hu, hU] at hwidth
    · exact absurd (hdigits x h) hhex

theorem not_blank_mem_quoted (hmark : mark = '\'' ∨ mark = '"') (h : ' ' ∉ word) :
    ' ' ∉ word.flatMap (quotedChar mark) := by
  rw [List.mem_flatMap]
  rintro ⟨c, hc, hmem⟩
  have hne : ' ' ≠ mark := by rcases hmark with rfl | rfl <;> decide
  obtain ⟨rfl, -⟩ := mem_of_mem_quotedChar hne (by decide) hmem
  exact h hc

theorem not_lineFeed_mem_quotedChars (word : List Char) : '\n' ∉ quotedChars word := by
  have hne : '\n' ≠ quoteMark word := by
    rcases quoteMark_eq word with h | h <;> rw [h] <;> decide
  simp only [quotedChars, List.mem_cons, List.mem_append, List.mem_flatMap, not_or]
  refine ⟨hne, ?_, hne, List.not_mem_nil⟩
  rintro ⟨c, -, hmem⟩
  obtain ⟨rfl, hprintable⟩ := mem_of_mem_quotedChar hne (by decide) hmem
  exact absurd hprintable (by decide)

end

end TapeCompiler.Text
