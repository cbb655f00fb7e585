import TapeCompiler.Proofs.Source.Parsing
/-!
# How far a rule goes

A rule that succeeds has read some of its tokens, and the end of the input is never among those;
what makes a rule fail is one of its tokens. A rule that has an end of the input before it does not
run out of tokens (`Advances`). The rules of one token advance by that token, and rules that follow
one another advance at least as far as the first.
-/
namespace TapeCompiler.Grammar

variable {α β : Type}

/-- The end of the input is among the tokens. -/
def HasEnd (tokens : List Token) : Prop := ∃ t ∈ tokens, t.kind = .endOfInput

theorem HasEnd.length_pos {tokens : List Token} (h : HasEnd tokens) : 0 < tokens.length := by
  obtain ⟨t, ht, -⟩ := h
  exact List.length_pos_of_mem ht

theorem HasEnd.exists_cons {tokens : List Token} (h : HasEnd tokens) :
    ∃ t more, tokens = t :: more :=
  List.exists_cons_of_length_pos h.length_pos

theorem HasEnd.behind {used rest : List Token} (h : HasEnd (used ++ rest))
    (hused : ∀ t ∈ used, t.kind ≠ .endOfInput) : HasEnd rest := by
  obtain ⟨t, ht, hkind⟩ := h
  rcases List.mem_append.1 ht with ht | ht
  · exact absurd hkind (hused t ht)
  · exact ⟨t, ht, hkind⟩

theorem HasEnd.tail {t : Token} {more : List Token} (h : HasEnd (t :: more))
    (ht : t.kind ≠ .endOfInput) : HasEnd more :=
  have h : HasEnd ([t] ++ more) := h
  h.behind (List.forall_mem_singleton.2 ht)

/-- The error is about one of the tokens. -/
def Error.Blames (tokens : List Token) : Error → Prop
  | unexpected _ t => t ∈ tokens
  | unreadableNumeral e => ∃ t ∈ tokens, t.kind = .number ∧ Text.readInteger t.text = .error e
  | unterminated | pastEnd | outOfFuel => False

theorem Error.Blames.append {e : Error} {tokens : List Token} (h : e.Blames tokens)
    (used : List Token) : e.Blames (used ++ tokens) := by
  cases e with
  | unexpected _ t => exact List.mem_append_right used h
  | unreadableNumeral _ =>
    obtain ⟨t, ht, hnumber⟩ := h
    exact ⟨t, List.mem_append_right used ht, hnumber⟩
  | unterminated | pastEnd | outOfFuel => exact h

/-- A rule that succeeds has read some tokens, at least `least` of them and no end of the input. If
it fails, one of its tokens is to blame. -/
structure Advances (least : Nat) (tokens : List Token) (result : Except Error (α × List Token)) :
    Prop where
  ok : ∀ {a rest}, result = .ok (a, rest) → ∃ used, tokens = used ++ rest ∧ least ≤ used.length ∧
    ∀ t ∈ used, t.kind ≠ .endOfInput
  error : ∀ {e}, result = .error e → e.Blames tokens

namespace Advances

variable {m n : Nat} {t : Token} {tokens more : List Token} {result : Except Error (β × List Token)}

theorem pure {b : β} : Advances 0 tokens (.ok (b, tokens)) where
  ok hok := by
    cases hok
    exact ⟨[], rfl, Nat.le_refl 0, by simp⟩
  error herror := by cases herror

theorem fails {e : Error} (h : e.Blames tokens) :
    Advances n tokens (.error e : Except Error (β × List Token)) where
  ok hok := by cases hok
  error herror := by
    cases herror
    exact h

theorem mono (h : Advances n tokens result) (hle : m ≤ n) : Advances m tokens result where
  ok hok := by
    obtain ⟨used, htokens, hused, hend⟩ := h.ok hok
    exact ⟨used, htokens, Nat.le_trans hle hused, hend⟩
  error := h.error

theorem cons (h : Advances n more result) (ht : t.kind ≠ .endOfInput) :
    Advances (n + 1) (t :: more) result where
  ok hok := by
    obtain ⟨used, rfl, hused, hend⟩ := h.ok hok
    exact ⟨t :: used, rfl, Nat.succ_le_succ hused, List.forall_mem_cons.2 ⟨ht, hend⟩⟩
  error herror := (h.error herror).append [t]

/-- One rule after another, which has the end of the input before it as well. -/
theorem bind {first : Except Error (α × List Token)}
    {next : α × List Token → Except Error (β × List Token)} (h : Advances m tokens first)
    (htokens : HasEnd tokens) (h' : ∀ a rest, HasEnd rest → rest.length + m ≤ tokens.length →
      Advances n rest (next (a, rest))) : Advances m tokens (first >>= next) := by
  cases first with
  | error e => exact fails (h.error rfl)
  | ok read =>
    obtain ⟨a, rest⟩ := read
    obtain ⟨used, rfl, hused, hend⟩ := h.ok rfl
    have hnext := h' a rest (htokens.behind hend) (by rw [List.length_append]; omega)
    refine ⟨fun hok => ?_, fun herror => (hnext.error herror).append used⟩
    obtain ⟨used', rfl, -, hend'⟩ := hnext.ok hok
    refine ⟨used ++ used', (List.append_assoc ..).symm, ?_, List.forall_mem_append.2 ⟨hend, hend'⟩⟩
    rw [List.length_append]
    omega

end Advances

/-! ## Rules without blocks -/

section

variable {tokens : List Token} (h : HasEnd tokens)

include h

theorem advances_expect {kind : TokenKind} (hkind : kind ≠ .endOfInput) (e : Expectation) :
    Advances 1 tokens (expect kind e tokens) := by
  obtain ⟨t, more, rfl⟩ := h.exists_cons
  rw [expect]
  split
  · next ht => exact .cons .pure (ht ▸ hkind)
  · exact .fails List.mem_cons_self

theorem advances_keyword (word : String) : Advances 1 tokens (keyword word tokens) := by
  obtain ⟨t, more, rfl⟩ := h.exists_cons
  rw [keyword]
  split
  · next ht => exact .cons .pure (by simp [(isKeyword_iff.1 ht).1])
  · exact .fails List.mem_cons_self

theorem advances_variableName : Advances 1 tokens (variableName tokens) := by
  obtain ⟨t, more, rfl⟩ := h.exists_cons
  rw [variableName]
  split
  · exact .fails List.mem_cons_self
  · next hkind =>
    split
    · exact .fails List.mem_cons_self
    · exact .cons .pure (by simp [not_not.1 hkind])

theorem advances_comparisonSign : Advances 1 tokens (comparisonSign tokens) := by
  obtain ⟨t, more, rfl⟩ := h.exists_cons
  rw [comparisonSign]
  split
  · next hkind => exact .cons .pure (by simp [hkind])
  · next hkind => exact .cons .pure (by simp [hkind])
  · exact .fails List.mem_cons_self

theorem advances_number : Advances 1 tokens (number tokens) := by
  obtain ⟨t, more, rfl⟩ := h.exists_cons
  by_cases hkind : t.kind = .number
  · cases hread : Text.readInteger t.text with
    | ok n =>
      rw [number_of_ok hkind hread]
      exact .cons .pure (by simp [hkind])
    | error e =>
      rw [number_of_error hkind hread]
      exact .fails ⟨t, List.mem_cons_self, hkind, hread⟩
  · rw [number_of_not_number hkind]
    exact .fails List.mem_cons_self

end

end TapeCompiler.Grammar
