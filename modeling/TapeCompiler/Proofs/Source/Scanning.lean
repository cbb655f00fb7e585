import Mathlib.Data.List.TakeWhile
import TapeCompiler.Proofs.Except
import TapeCompiler.Proofs.Source.Spelling
import TapeCompiler.Source.Scan
/-!
# What the scan makes

The texts of scanned tokens fit their kinds, and there are at most as many tokens as characters,
the end of the input apart (`tokens_fit`).
-/
namespace TapeCompiler.Scan

open TapeCompiler.Text

/-! ## Numbers -/

theorem readMagnitude_digits {whole : String} {word : List Char} (hne : word ≠ [])
    (h : ∀ c ∈ word, c.isDigit = true) (hlength : word.length ≤ digitLimit) :
    readMagnitude whole word = .ok (digitsValue word) := by
  have hbody : ∀ c ∈ word, (c.isDigit || c == '_') = true := fun c hc => by simp [h c hc]
  have hsplit : word.splitOn '_' = [word] :=
    List.splitOn_eq_singleton fun hmem => by simpa using h '_' hmem
  simp only [readMagnitude, List.takeWhile_eq_self_iff.2 hbody, List.dropWhile_eq_nil_iff.2 hbody,
    hsplit, List.any_cons, List.any_nil, List.flatten_cons, List.flatten_nil, List.append_nil]
  rw [if_neg (by simp [hne]), if_neg (by omega), if_neg (by simp)]

/-- The lenient reading of a number agrees with the plain one on ASCII digits. -/
theorem readInteger_digits {word : List Char} (hne : word ≠ []) (h : ∀ c ∈ word, c.isDigit = true)
    (hlength : word.length ≤ digitLimit) :
    readInteger (String.ofList word) = .ok (digitsValue word : Int) := by
  have hrange : ∀ c ∈ word, 48 ≤ c.toNat ∧ c.toNat ≤ 57 :=
    fun c hc => Char.isDigit_iff_toNat.1 (h c hc)
  have hascii : asciiText word = word := by
    refine if_pos (List.all_eq_true.2 fun c hc => decide_eq_true ?_)
    have := hrange c hc
    omega
  obtain ⟨c, rest, rfl⟩ := List.exists_cons_of_ne_nil hne
  have hc := hrange c List.mem_cons_self
  have hblank : isAsciiBlank c = false := by
    have hne : c ≠ ' ' := by
      rintro rfl
      simp at hc
    have hlow : ¬c.toNat ≤ 0x0D := by omega
    rw [isAsciiBlank, beq_false_of_ne hne, decide_eq_false hlow, Bool.and_false]
    rfl
  rw [readInteger, String.toList_ofList, hascii, List.dropWhile_cons_of_neg (by simp [hblank])]
  split
  · next he =>
    cases he
    simp at hc
  · next he =>
    cases he
    simp at hc
  · rw [readMagnitude_digits hne h hlength]
    rfl

/-! ## One place -/

theorem sign?_kind {c : Char} {next : Option Char} {kind : TokenKind} {length : Nat}
    (h : sign? c next = some (kind, length)) : kind ≠ .name ∧ kind ≠ .number := by
  unfold sign? at h
  split at h <;> simp at h <;> simp [← h.1]

theorem take_length_takeWhile (p : Char → Bool) (text : List Char) :
    text.take (text.takeWhile p).length = text.takeWhile p :=
  (List.prefix_iff_eq_take.1 (List.takeWhile_prefix p)).symm

theorem numeralLexeme_token {word : List Char} {kind : TokenKind} {length : Nat}
    (h : numeralLexeme word = .token kind length) :
    kind = .number ∧ length = word.length ∧ (∀ c ∈ word, c.isDigit = true) ∧
      word.length ≤ digitLimit ∧ digitsValue word ≤ 255 := by
  rw [numeralLexeme] at h
  split at h
  · simp at h
  · next hdigits =>
    rw [Bool.not_eq_true', Bool.not_eq_false, List.all_eq_true] at hdigits
    split at h
    · simp at h
    · split at h
      · simp at h
      · next n hn =>
        rw [readDigits] at hn
        split at hn
        · next hlength =>
          cases hn
          split at h
          · next hmax =>
            cases h
            exact ⟨rfl, rfl, hdigits, hlength, hmax⟩
          · simp at h
        · simp at hn

/-- The token that begins at a place has a text that fits its kind. -/
theorem fitsKind_of_lexemeAt {c : Char} {rest : List Char} {kind : TokenKind} {length : Nat}
    (h : lexemeAt c rest = .token kind length) (p : Position) :
    Token.FitsKind ⟨kind, String.ofList ((c :: rest).take length), p⟩ := by
  unfold lexemeAt at h
  split at h
  · simp at h
  · split at h
    · simp at h
    · split at h
      · next hsign =>
        cases h
        obtain ⟨hname, hnumber⟩ := sign?_kind hsign
        constructor
        · intro hk
          exact absurd hk hname
        · intro hk
          exact absurd hk hnumber
      · have hword := take_length_takeWhile isNameChar (c :: rest)
        split at h
        · next hdigit =>
          have hne : (c :: rest).takeWhile isNameChar ≠ [] := by
            rw [List.takeWhile_cons_of_pos (by simp [isNameChar, hdigit])]
            exact List.cons_ne_nil _ _
          obtain ⟨rfl, rfl, hdigits, hlength, hvalue⟩ := numeralLexeme_token h
          rw [hword]
          refine ⟨fun hk => absurd hk (by simp), fun _ => ?_⟩
          exact ⟨_, readInteger_digits hne hdigits hlength, by omega, by omega⟩
        · split at h
          · next hstart =>
            cases h
            rw [hword]
            refine ⟨fun _ => ?_, fun hk => absurd hk (by simp)⟩
            rw [String.toList_ofList, List.takeWhile_cons_of_pos (by simp [isNameChar, hstart]),
              isName, hstart, Bool.true_and]
            exact List.all_takeWhile
          · simp at h

/-! ## The whole text -/

/-- Scanned tokens fit their kinds, and each but the last takes up a character. -/
theorem scanFrom_fits {mode : Mode} {p : Position} {text : List Char} {ts : List Token}
    (h : scanFrom mode p text = .ok ts) :
    (∀ t ∈ ts, t.FitsKind) ∧ ts.length ≤ text.length + 1 := by
  induction mode, p, text using scanFrom.induct generalizing ts with
  | case1 mode p =>
    rw [scanFrom] at h
    cases h
    refine ⟨List.forall_mem_singleton.2 ⟨fun hk => ?_, fun hk => ?_⟩, Nat.le_refl 1⟩
    · simp at hk
    · simp at hk
  | case2 p rest ih =>
    rw [scanFrom, if_pos rfl] at h
    exact ⟨(ih h).1, Nat.le_succ_of_le (ih h).2⟩
  | case3 p c rest hc ih =>
    rw [scanFrom, if_neg hc] at h
    exact ⟨(ih h).1, Nat.le_succ_of_le (ih h).2⟩
  | case4 left p c rest ih =>
    rw [scanFrom] at h
    exact ⟨(ih h).1, Nat.le_succ_of_le (ih h).2⟩
  | case5 p c rest hblank ih =>
    rw [scanFrom, hblank] at h
    exact ⟨(ih h).1, Nat.le_succ_of_le (ih h).2⟩
  | case6 p c rest hcomment ih =>
    rw [scanFrom, hcomment] at h
    exact ⟨(ih h).1, Nat.le_succ_of_le (ih h).2⟩
  | case7 p c rest fault hfault =>
    rw [scanFrom, hfault] at h
    simp at h
  | case8 p c rest kind length htoken ih =>
    rw [scanFrom, htoken] at h
    obtain ⟨more, hmore, h⟩ := bind_eq_ok.1 h
    cases h
    exact ⟨List.forall_mem_cons.2 ⟨fitsKind_of_lexemeAt htoken p, (ih hmore).1⟩,
      Nat.succ_le_succ (ih hmore).2⟩

theorem tokens_fit {source : String} {ts : List Token} (h : tokens source = .ok ts) :
    (∀ t ∈ ts, t.FitsKind) ∧ ts.length ≤ source.length + 1 := by
  rw [← String.length_toList]
  exact scanFrom_fits h

end TapeCompiler.Scan
