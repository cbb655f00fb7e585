import TapeCompiler.Text.Character
/-!
# Characters of names and numbers

The characters of names and numbers are ASCII, so that ranges of code points tell them apart from
each other and from blanks.
-/
namespace TapeCompiler.Text

theorem isNameStart_iff_toNat {c : Char} : isNameStart c = true ↔
    65 ≤ c.toNat ∧ c.toNat ≤ 90 ∨ 97 ≤ c.toNat ∧ c.toNat ≤ 122 ∨ c.toNat = 95 := by
  have hsign : c = '_' ↔ c.toNat = 95 := Char.toNat_inj.symm
  show (decide (c.val ≥ 'A'.val ∧ c.val ≤ 'Z'.val) ||
    (decide (c.val ≥ 'a'.val) && decide (c.val ≤ 'z'.val)) || c == '_') = true ↔ _
  simp only [Bool.or_eq_true, Bool.and_eq_true, decide_eq_true_eq, beq_iff_eq, ge_iff_le,
    UInt32.le_iff_toNat_le, hsign]
  exact or_assoc

theorem isNameChar_iff_toNat {c : Char} : isNameChar c = true ↔
    isNameStart c = true ∨ 48 ≤ c.toNat ∧ c.toNat ≤ 57 := by
  rw [isNameChar, Bool.or_eq_true, Char.isDigit_iff_toNat]
  rfl

theorem isBlank_eq_false {c : Char} (hlow : 33 ≤ c.toNat) (hhigh : c.toNat ≤ 132) :
    isBlank c = false := by
  rw [isBlank, Bool.eq_false_iff, Ne, CodeRanges.has_iff]
  simp only [blankRanges, List.mem_cons, List.not_mem_nil, or_false]
  rintro ⟨r, rfl | rfl | rfl | rfl | rfl | rfl | rfl | rfl | rfl | rfl, hr⟩ <;>
    simp only at hr <;> omega

theorem isNameChar_of_isDigit {c : Char} (h : c.isDigit = true) : isNameChar c = true := by
  simp [isNameChar, h]

theorem isDigit_of_not_isNameChar {c : Char} (h : isNameChar c = false) : c.isDigit = false := by
  rw [Bool.eq_false_iff]
  intro hdigit
  simp [isNameChar_of_isDigit hdigit] at h

theorem isDigit_of_isNameStart {c : Char} (h : isNameStart c = true) : c.isDigit = false := by
  have hstart := isNameStart_iff_toNat.1 h
  rw [Bool.eq_false_iff, Ne, Char.isDigit_iff_toNat]
  show ¬(48 ≤ c.toNat ∧ c.toNat ≤ 57)
  omega

theorem isBlank_of_isNameChar {c : Char} (h : isNameChar c = true) : isBlank c = false := by
  rw [isNameChar_iff_toNat, isNameStart_iff_toNat] at h
  exact isBlank_eq_false (by omega) (by omega)

theorem isDigits_spec {word : List Char} (h : isDigits word = true) :
    word ≠ [] ∧ ∀ c ∈ word, c.isDigit = true := by
  simpa [isDigits] using h

theorem isName_spec {name : List Char} (h : isName name = true) :
    name ≠ [] ∧ (∀ c ∈ name, isNameChar c = true) ∧ isDigits name = false := by
  cases name with
  | nil => simp [isName] at h
  | cons c rest =>
    rw [isName, Bool.and_eq_true, List.all_eq_true] at h
    refine ⟨List.cons_ne_nil _ _, List.forall_mem_cons.2 ⟨by simp [isNameChar, h.1], h.2⟩, ?_⟩
    simp [isDigits, isDigit_of_isNameStart h.1]

theorem isDigits_toDigits (n : Nat) : isDigits (Nat.toDigits 10 n) = true := by
  simp only [isDigits, Bool.and_eq_true, Bool.not_eq_true', List.isEmpty_eq_false_iff,
    List.all_eq_true]
  exact ⟨Nat.toDigits_ne_nil, fun c => Nat.isDigit_of_mem_toDigits (by decide) (by decide)⟩

theorem toList_toString_natCast (n : Nat) : (toString (n : Int)).toList = Nat.toDigits 10 n := by
  rw [show toString (n : Int) = toString n from rfl, Nat.toString_eq_ofList_toDigits,
    String.toList_ofList]

/-- The digits of a number and its sign stay on one line. -/
theorem not_lineFeed_mem_toString (n : Int) : '\n' ∉ (toString n).toList := by
  have hdigits : ∀ k, '\n' ∉ Nat.toDigits 10 k := by
    intro k hmem
    have hdigit := Nat.isDigit_of_mem_toDigits (by decide) (by decide) hmem
    simp at hdigit
  cases n with
  | ofNat k =>
    rw [Int.ofNat_eq_natCast, toList_toString_natCast]
    exact hdigits k
  | negSucc k =>
    have htext : (toString (Int.negSucc k)).toList = '-' :: Nat.toDigits 10 (k + 1) := by
      have hnumber : (toString (k + 1)).toList = Nat.toDigits 10 (k + 1) :=
        toList_toString_natCast (k + 1)
      rw [show toString (Int.negSucc k) = "-" ++ toString (k + 1) from rfl, String.toList_append,
        hnumber]
      rfl
    rw [htext, List.mem_cons, not_or]
    exact ⟨by decide, hdigits (k + 1)⟩

end TapeCompiler.Text
