import Mathlib.Algebra.Group.Nat.Defs
import TapeCompiler.Proofs.Asm.FaultLines
import TapeCompiler.Proofs.Asm.TextForm
/-!
# What reading gives

Whatever blanks, leading zeros, comments and missing operands a text has, the instructions that are
read from it can be written and read again (`readable_of_readProgram`), and the expansion keeps
this: it only puts in numbers that were read themselves (`Expansion.readable`).
-/
namespace TapeCompiler.Asm

open TapeCompiler.Text

/-- An operand that is read again from its text. -/
structure Ref.Readable (ref : Ref) : Prop where
  written : ref.Written
  short : ref.Short

/-- An instruction that is read again from its line. -/
structure Instr.Readable (instr : Instr Ref) : Prop where
  written : instr.Written
  short : instr.Short
  not_comment : instr.isComment = false

/-! ## Operands -/

theorem ofDigitChars_lt {digits : List Char} (h : ∀ c ∈ digits, c.isDigit = true) (start : Nat) :
    Nat.ofDigitChars 10 digits start < (start + 1) * 10 ^ digits.length := by
  induction digits generalizing start with
  | nil => simp
  | cons c rest ih =>
    rw [List.forall_mem_cons, Char.isDigit_iff_toNat] at h
    rw [Nat.ofDigitChars_cons, List.length_cons]
    have hrange : 48 ≤ c.toNat ∧ c.toNat ≤ 57 := h.1
    have hdigit : 10 * start + (c.toNat - '0'.toNat) + 1 ≤ (start + 1) * 10 := by
      have hzero : '0'.toNat = 48 := rfl
      omega
    calc Nat.ofDigitChars 10 rest (10 * start + (c.toNat - '0'.toNat))
        < (10 * start + (c.toNat - '0'.toNat) + 1) * 10 ^ rest.length := ih h.2 _
      _ ≤ (start + 1) * 10 * 10 ^ rest.length := Nat.mul_le_mul_right _ hdigit
      _ = (start + 1) * 10 ^ (rest.length + 1) := by rw [Nat.mul_assoc, Nat.pow_succ']

/-- Leading zeros apart, a number has the digits from which it was read. -/
theorem length_toDigits_digitsValue {digits : List Char} (h : isDigits digits = true) :
    (Nat.toDigits 10 (digitsValue digits)).length ≤ digits.length := by
  obtain ⟨hne, hall⟩ := isDigits_spec h
  rw [Nat.length_toDigits_le_iff (by decide) (List.length_pos_iff.2 hne)]
  simpa [digitsValue] using ofDigitChars_lt hall 0

theorem readable_zero : (Ref.number 0).Readable := ⟨by decide, by decide⟩

theorem readable_of_readRef {word : List Char} {ref : Ref} (h : readRef word = .ok ref) :
    ref.Readable := by
  rw [readRef] at h
  split at h
  · next hdigits =>
    rw [readDigits] at h
    split at h
    · next n heq =>
      split at heq
      · next hlength =>
        cases heq
        cases h
        exact ⟨Int.natCast_nonneg _, Nat.le_trans (length_toDigits_digitsValue hdigits) hlength⟩
      · cases heq
    · cases h
  · split at h
    · next hname =>
      cases h
      exact ⟨by rwa [Ref.Written, String.toList_ofList], trivial⟩
    · cases h

/-! ## Lines -/

/-- What is neither a definition nor a comment is written if its operands are and, if it is a copy,
it has a target. -/
theorem written_of_refs {instr : Instr Ref} (hrefs : ∀ ref ∈ instr.refs, ref.Written)
    (hdefine : instr.isDefine = false) (hcomment : instr.isComment = false)
    (hcopy : ∀ source, instr ≠ .copy source []) : instr.Written := by
  refine ⟨hrefs, ?_⟩
  cases instr with
  | define => cases hdefine
  | comment => cases hcomment
  | copy source targets =>
    rintro rfl
    exact hcopy source rfl
  | _ => trivial

/-- The operands of an instruction that is read are those of its line, or the zero that stands for
the first cell. -/
theorem readable_of_apply {mnemonic : Mnemonic} {refs : List Ref} {instr : Instr Ref}
    (hrefs : ∀ ref ∈ refs, ref.Readable) (h : mnemonic.apply refs = .ok instr) :
    instr.Readable := by
  have hread : (∀ ref ∈ instr.refs, ref.Readable) ∧ instr.isDefine = false ∧
      instr.isComment = false ∧ ∀ source, instr ≠ .copy source [] := by
    unfold Mnemonic.apply at h
    split at h <;> cases h <;>
      simp_all [Instr.refs, Instr.operands, Instr.isDefine, Instr.isComment, readable_zero]
  obtain ⟨hread, hdefine, hcomment, hcopy⟩ := hread
  exact ⟨written_of_refs (fun ref hmem => (hread ref hmem).written) hdefine hcomment hcopy,
    fun ref hmem => (hread ref hmem).short, hcomment⟩

theorem readable_of_readDefine {words : List (List Char)} {instr : Instr Ref}
    (h : readDefine words = .ok instr) : instr.Readable := by
  unfold readDefine at h
  split at h
  · split at h
    · next name value hname =>
      obtain ⟨ref, href, h⟩ := bind_eq_ok.1 h
      cases h
      have hvalue := readable_of_readRef href
      have hname' : isName (String.ofList name).toList = true := by rwa [String.toList_ofList]
      exact ⟨⟨List.forall_mem_singleton.2 hvalue.written, hname'⟩,
        List.forall_mem_singleton.2 hvalue.short, rfl⟩
    · cases h
  · cases h

theorem readable_of_readLine {text : String} {instr : Instr Ref}
    (h : readLine text = .ok (some instr)) : instr.Readable := by
  unfold readLine at h
  split at h
  · cases h
  split at h
  · obtain ⟨define, hdefine, h⟩ := bind_eq_ok.1 h
    cases h
    exact readable_of_readDefine hdefine
  split at h
  · cases h
  split at h
  · cases h
  obtain ⟨refs, hrefs, h⟩ := bind_eq_ok.1 h
  obtain ⟨_, happly, h⟩ := bind_eq_ok.1 h
  cases h
  refine readable_of_apply (fun ref hmem => ?_) happly
  obtain ⟨word, -, hword⟩ := exists_of_mem_mapM hrefs hmem
  exact readable_of_readRef hword

/-- Every instruction that is read from a text is read again from its own line. -/
theorem readable_of_readProgram {source : String} {program : Numbered}
    (h : readProgram source = .ok program) : ∀ entry ∈ program, entry.2.Readable := by
  intro entry hmem
  obtain ⟨text, -, hread⟩ := standsOn_of_readLines h entry hmem
  exact readable_of_readLine hread

/-! ## Expansion -/

section

variable {program expanded : Numbered} {definitions : Definitions} {instr : Instr Ref}

theorem Ref.Readable.resolve {ref : Ref} (h : ref.Readable)
    (htable : ∀ pair ∈ definitions, (Ref.number pair.2).Readable) :
    (ref.resolve definitions).Readable := by
  cases ref with
  | number n => exact h
  | name s =>
    rw [Ref.resolve]
    cases hlookup : definitions.lookup s with
    | none => exact h
    | some n =>
      obtain ⟨before, after, rfl, -⟩ := List.lookup_eq_some_iff.1 hlookup
      exact htable (s, n) (by simp)

theorem refs_map (f : Ref → Ref) (instr : Instr Ref) : (instr.map f).refs = instr.refs.map f := by
  rw [Instr.refs, Instr.operands_map, List.map_map, Instr.refs, List.map_map]
  rfl

theorem Instr.Readable.resolve (h : instr.Readable) (hdefine : instr.isDefine = false)
    (htable : ∀ pair ∈ definitions, (Ref.number pair.2).Readable) :
    (instr.map (Ref.resolve definitions)).Readable := by
  have hrefs : ∀ ref ∈ (instr.map (Ref.resolve definitions)).refs, ref.Readable := by
    rw [refs_map, List.forall_mem_map]
    exact fun ref hmem => Ref.Readable.resolve ⟨h.written.refs ref hmem, h.short ref hmem⟩ htable
  have hcomment : (instr.map (Ref.resolve definitions)).isComment = false := by
    rw [isComment_map]
    exact h.not_comment
  refine ⟨written_of_refs (fun ref hmem => (hrefs ref hmem).written) ?_ hcomment ?_,
    fun ref hmem => (hrefs ref hmem).short, hcomment⟩
  · rw [isDefine_map]
    exact hdefine
  · have hform := h.written.form
    rintro source heq
    cases instr with
    | copy source targets => exact hform (List.map_eq_nil_iff.1 (Instr.copy.inj heq).2)
    | _ => cases heq

/-- The expansion of what was read is read again, for no number is put in that was not read. -/
theorem Expansion.readable (h : Expansion definitions program expanded)
    (htable : ∀ pair ∈ definitions, (Ref.number pair.2).Readable)
    (hprogram : ∀ entry ∈ program, entry.2.Readable) : ∀ entry ∈ expanded, entry.2.Readable := by
  induction h with
  | done => exact hprogram
  | @define definitions line name value n rest expanded hvalue _ ih =>
    rw [List.forall_mem_cons] at hprogram
    have hread : value.Readable :=
      ⟨hprogram.1.written.refs value List.mem_cons_self, hprogram.1.short value List.mem_cons_self⟩
    exact ih (List.forall_mem_cons.2 ⟨hvalue ▸ hread.resolve htable, htable⟩) hprogram.2
  | keep hdefine _ ih =>
    rw [List.forall_mem_cons] at hprogram
    exact List.forall_mem_cons.2 ⟨hprogram.1.resolve hdefine htable, ih htable hprogram.2⟩

end

end TapeCompiler.Asm
