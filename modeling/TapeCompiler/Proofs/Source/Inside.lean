import TapeCompiler.Proofs.Source.Advance
import TapeCompiler.Proofs.Source.Calls
/-!
# The parser stays inside its tokens

No rule goes past an end of the input, so a rule that has one before it does not run out of tokens.
Every rule but those of blocks and programs reads a token when it succeeds, so there is fuel enough
for it. A logged rule does what the rule does, and all this holds of every call that it makes
(`Runs`), so it holds of all calls of a parse (`runs_program`). What makes a parse fail is one of its
tokens (`blames_of_parseTokens`).
-/
namespace TapeCompiler.Grammar

variable {α β : Type}

/-! ## Calls -/

/-- How many tokens a rule reads at least. -/
def RuleName.least : RuleName → Nat
  | program | block => 0
  | _ => 1

/-- A call in the parse of some tokens. It begins at one of them and before the end of the input. If
it returns, it has read as many tokens as its rule has to and left the end of the input, and if it
fails, one of the tokens before it is to blame. -/
structure Call.Inside (tokens : List Token) (c : Call) : Prop where
  begins : ∃ ahead, tokens = ahead ++ c.tokens ∧ ∀ t ∈ ahead, t.kind ≠ .endOfInput
  ends : HasEnd c.tokens
  returns : ∀ {rest}, c.result = .ok rest → ∃ used, c.tokens = used ++ rest ∧
    c.rule.least ≤ used.length ∧ ∀ t ∈ used, t.kind ≠ .endOfInput
  fails : ∀ {e}, c.result = .error e → e.Blames c.tokens

theorem Call.Inside.append {used tokens : List Token} {c : Call} (h : c.Inside tokens)
    (hused : ∀ t ∈ used, t.kind ≠ .endOfInput) : c.Inside (used ++ tokens) where
  begins := by
    obtain ⟨ahead, rfl, hahead⟩ := h.begins
    exact ⟨used ++ ahead, (List.append_assoc ..).symm, List.forall_mem_append.2 ⟨hused, hahead⟩⟩
  ends := h.ends
  returns := h.returns
  fails := h.fails

/-- What a logged rule does: it has the result of the rule, which advances, and its calls stay
inside the tokens. -/
structure Runs (least : Nat) (tokens : List Token) (run : Logged (α × List Token))
    (result : Except Error (α × List Token)) : Prop where
  result_eq : run.result = result
  advances : Advances least tokens result
  inside : ∀ c ∈ run.calls, c.Inside tokens

namespace Runs

variable {m n : Nat} {t : Token} {tokens more : List Token} {run : Logged (β × List Token)}
  {result : Except Error (β × List Token)}

theorem lift (h : Advances n tokens result) : Runs n tokens (.lift result) result :=
  ⟨rfl, h, fun _ hc => absurd hc List.not_mem_nil⟩

theorem pure {b : β} : Runs 0 tokens (Pure.pure (b, tokens)) (.ok (b, tokens)) := lift .pure

theorem fails {e : Error} (h : e.Blames tokens) :
    Runs n tokens (.fail e : Logged (β × List Token)) (.error e) := lift (.fails h)

theorem mono (h : Runs n tokens run result) (hle : m ≤ n) : Runs m tokens run result :=
  ⟨h.result_eq, h.advances.mono hle, h.inside⟩

theorem cons (h : Runs n more run result) (ht : t.kind ≠ .endOfInput) :
    Runs (n + 1) (t :: more) run result :=
  ⟨h.result_eq, h.advances.cons ht, fun c hc =>
    (h.inside c hc).append (List.forall_mem_singleton.2 ht)⟩

/-- A rule that has the end of the input before it may be called. -/
theorem call {rule : RuleName} (h : Runs n tokens run result) (htokens : HasEnd tokens)
    (hleast : rule.least ≤ n) : Runs n tokens (.call rule tokens run) result where
  result_eq := h.result_eq
  advances := h.advances
  inside := by
    intro c hc
    rcases List.mem_append.1 hc with hc | hc
    · exact h.inside c hc
    obtain rfl := List.mem_singleton.1 hc
    refine ⟨⟨[], rfl, by simp⟩, htokens, fun hok => ?_, fun herror => ?_⟩
    · obtain ⟨⟨b, rest⟩, hb, rfl⟩ := map_eq_ok.1 hok
      obtain ⟨used, heq, hused, hend⟩ := h.advances.ok (h.result_eq.symm.trans hb)
      exact ⟨used, heq, Nat.le_trans hleast hused, hend⟩
    · exact h.advances.error (h.result_eq.symm.trans (map_eq_error.1 herror))

/-- One rule after another. The calls of the second begin behind what the first has read. -/
theorem bind {run : Logged (α × List Token)} {first : Except Error (α × List Token)}
    {nextRun : α × List Token → Logged (β × List Token)}
    {next : α × List Token → Except Error (β × List Token)} (h : Runs m tokens run first)
    (htokens : HasEnd tokens) (h' : ∀ a rest, HasEnd rest → rest.length + m ≤ tokens.length →
      Runs n rest (nextRun (a, rest)) (next (a, rest))) :
    Runs m tokens (run >>= nextRun) (first >>= next) := by
  have hadvances : Advances m tokens (first >>= next) :=
    h.advances.bind htokens fun a rest hrest hlength => (h' a rest hrest hlength).advances
  obtain ⟨found, calls⟩ := run
  obtain rfl : found = first := h.result_eq
  cases found with
  | error e => exact ⟨rfl, hadvances, h.inside⟩
  | ok read =>
    obtain ⟨a, rest⟩ := read
    obtain ⟨used, rfl, hused, hend⟩ := h.advances.ok rfl
    have hnext := h' a rest (htokens.behind hend) (by rw [List.length_append]; omega)
    refine ⟨hnext.result_eq, hadvances, fun c hc => ?_⟩
    rcases List.mem_append.1 hc with hc | hc
    · exact h.inside c hc
    · exact (hnext.inside c hc).append hend

end Runs

/-! ## Rules without blocks -/

section

variable {tokens : List Token} (h : HasEnd tokens)

include h

theorem runs_variableName : Runs 1 tokens (Logged.variableName tokens) (variableName tokens) :=
  .call (.lift (advances_variableName h)) h (Nat.le_refl 1)

theorem runs_comparison : Runs 1 tokens (Logged.comparison tokens) (comparison tokens) :=
  .call (.bind (runs_variableName h) h fun _ _ h _ =>
    .bind (.lift (advances_comparisonSign h)) h fun _ _ h _ =>
      .bind (.lift (advances_number h)) h fun _ _ _ _ => .pure) h (Nat.le_refl 1)

theorem runs_conditionWith {fuel : Nat} (hfuel : tokens.length < fuel) :
    Runs 1 tokens (Logged.conditionWith fuel tokens) (conditionWith fuel tokens) := by
  induction fuel generalizing tokens with
  | zero => exact absurd hfuel (Nat.not_lt_zero _)
  | succ fuel ih =>
    refine .bind (n := 0) (runs_comparison h) h fun first rest h hrest => ?_
    obtain ⟨t, more, rfl⟩ := h.exists_cons
    rw [List.length_cons] at hrest
    simp only
    split
    · next hand =>
      have hend : t.kind ≠ .endOfInput := by simp [hand]
      have hmore := h.tail hend
      refine .mono (n := 2) (.cons ?_ hend) (Nat.zero_le 2)
      exact .bind (ih hmore (by omega)) hmore fun _ _ _ _ => .pure
    · exact .pure

theorem runs_condition : Runs 1 tokens (Logged.condition tokens) (condition tokens) :=
  .call (runs_conditionWith h (Nat.lt_succ_self _)) h (Nat.le_refl 1)

theorem runs_assignment : Runs 1 tokens (Logged.assignment tokens) (assignment tokens) :=
  .call (.bind (runs_variableName h) h fun _ _ h _ =>
    .bind (.lift (advances_expect h (by decide) _)) h fun _ _ h _ =>
      .bind (.lift (advances_number h)) h fun _ _ _ _ => .pure) h (Nat.le_refl 1)

end

theorem runs_transfer {t : Token} {rest : List Token} (ht : t.kind ≠ .endOfInput)
    (h : HasEnd (t :: rest)) :
    Runs 1 (t :: rest) (Logged.transfer (t :: rest)) (transfer (t :: rest)) := by
  have hrest := h.tail ht
  refine .call (.mono (n := 2) (.cons ?_ ht) (by decide)) h (Nat.le_refl 1)
  exact .bind (.lift (advances_expect hrest (by decide) _)) hrest fun _ _ h _ =>
    .bind (runs_variableName h) h fun _ _ h _ =>
      .bind (.lift (advances_expect h (by decide) _)) h fun _ _ _ _ => .pure

/-! ## Rules with blocks

Every call takes one unit of fuel, and from a block to the block inside it there are four calls and
at least one token, the brace. So four units for every token that is left are enough. -/

mutual

theorem runs_blockWith : ∀ (fuel : Nat) {tokens : List Token}, HasEnd tokens →
    4 * tokens.length ≤ fuel → Runs 0 tokens (Logged.blockWith fuel tokens) (blockWith fuel tokens)
  | 0, _, h, hfuel => absurd h.length_pos (by omega)
  | fuel + 1, tokens, h, hfuel => by
    obtain ⟨t, more, rfl⟩ := h.exists_cons
    rw [Logged.blockWith, blockWith]
    split
    · exact .pure
    · refine .mono (n := 1) ?_ (Nat.zero_le 1)
      exact .bind (runs_statementWith fuel h (by omega)) h fun _ _ h hrest =>
        .bind (runs_blockWith fuel h (by omega)) h fun _ _ h _ => .pure

theorem runs_bracedWith : ∀ (fuel : Nat) {tokens : List Token}, HasEnd tokens →
    4 * tokens.length ≤ fuel + 3 →
      Runs 1 tokens (Logged.bracedWith fuel tokens) (bracedWith fuel tokens)
  | 0, _, h, hfuel => absurd h.length_pos (by omega)
  | fuel + 1, tokens, h, hfuel =>
    .call (.bind (.lift (advances_expect h (by decide) _)) h fun _ _ h hrest =>
      .bind (.call (runs_blockWith fuel h (by omega)) h (Nat.le_refl 0)) h fun _ _ h _ =>
        .bind (.lift (advances_expect h (by decide) _)) h fun _ _ _ _ => .pure) h (Nat.le_refl 1)

theorem runs_statementWith : ∀ (fuel : Nat) {tokens : List Token}, HasEnd tokens →
    4 * tokens.length ≤ fuel + 1 →
      Runs 1 tokens (Logged.statementWith fuel tokens) (statementWith fuel tokens)
  | 0, _, h, hfuel => absurd h.length_pos (by omega)
  | fuel + 1, tokens, h, hfuel => by
    obtain ⟨t, more, rfl⟩ := h.exists_cons
    rw [Logged.statementWith]
    refine .call ?_ h (Nat.le_refl 1)
    by_cases hkind : t.kind = .name
    swap
    · rw [if_pos hkind, statementWith_of_not_name hkind]
      exact .fails List.mem_cons_self
    have hend : t.kind ≠ .endOfInput := by simp [hkind]
    have hword {word : String} (htext : t.text = word) : isKeyword word t = true :=
      isKeyword_iff.2 ⟨hkind, htext⟩
    rw [if_neg (not_not.2 hkind)]
    split
    · next htext =>
      rw [statementWith_if (hword htext)]
      exact runs_branchWith fuel h (by omega)
    · next htext =>
      rw [statementWith_while (hword htext)]
      exact runs_loopWith fuel h (by omega)
    · next htext =>
      have hright : isKeyword Direction.right.word t = true := hword htext
      rw [statementWith_move hright]
      exact .cons .pure hend
    · next htext =>
      have hleft : isKeyword Direction.left.word t = true := hword htext
      rw [statementWith_move hleft]
      exact .cons .pure hend
    · next htext =>
      rw [statementWith_transfer (.inl (hword htext))]
      exact runs_transfer hend h
    · next htext =>
      rw [statementWith_transfer (.inr (hword htext))]
      exact runs_transfer hend h
    · next htext =>
      rw [statementWith_else (hword htext)]
      exact .fails List.mem_cons_self
    · rw [statementWith_of_not_reserved hkind (by simp_all [reservedWords])]
      exact runs_assignment h

theorem runs_branchWith : ∀ (fuel : Nat) {tokens : List Token}, HasEnd tokens →
    4 * tokens.length ≤ fuel + 2 →
      Runs 1 tokens (Logged.branchWith fuel tokens) (branchWith fuel tokens)
  | 0, _, h, hfuel => absurd h.length_pos (by omega)
  | fuel + 1, tokens, h, hfuel => by
    refine .call ?_ h (Nat.le_refl 1)
    refine .bind (.lift (advances_keyword h "if")) h fun _ _ h hkeyword =>
      .bind (runs_condition h) h fun condition rest h hcondition =>
        .bind (n := 0) (runs_bracedWith fuel h (by omega)) h fun body rest h hbraced => ?_
    obtain ⟨t, more, rfl⟩ := h.exists_cons
    rw [List.length_cons] at hbraced
    simp only
    split
    · next helse =>
      have hend : t.kind ≠ .endOfInput := by simp [(isKeyword_iff.1 helse).1]
      have hmore := h.tail hend
      refine .mono (n := 2) (.cons ?_ hend) (Nat.zero_le 2)
      obtain ⟨u, others, rfl⟩ := hmore.exists_cons
      simp only
      split
      · exact .bind (runs_branchWith fuel hmore (by omega)) hmore fun _ _ _ _ => .pure
      · exact .bind (runs_bracedWith fuel hmore (by omega)) hmore fun _ _ _ _ => .pure
    · exact .pure

theorem runs_loopWith : ∀ (fuel : Nat) {tokens : List Token}, HasEnd tokens →
    4 * tokens.length ≤ fuel + 2 →
      Runs 1 tokens (Logged.loopWith fuel tokens) (loopWith fuel tokens)
  | 0, _, h, hfuel => absurd h.length_pos (by omega)
  | fuel + 1, tokens, h, hfuel =>
    .call (.bind (.lift (advances_keyword h "while")) h fun _ _ h hkeyword =>
      .bind (runs_condition h) h fun _ _ h hcondition =>
        .bind (runs_bracedWith fuel h (by omega)) h fun _ _ _ _ => .pure) h (Nat.le_refl 1)

end

/-! ## Programs -/

theorem runs_program {tokens : List Token} (h : HasEnd tokens) :
    Runs 0 tokens (Logged.program tokens) (program tokens) := by
  refine .call ?_ h (Nat.le_refl 0)
  have hblock : Runs 0 tokens (Logged.blockWith (fuelFor tokens) tokens) (block tokens) :=
    runs_blockWith _ h (by simp [fuelFor])
  refine .bind (n := 0) (.call hblock h (Nat.le_refl 0)) h fun statements rest h _ => ?_
  obtain ⟨t, more, rfl⟩ := h.exists_cons
  simp only
  split
  · exact .pure
  · exact .fails List.mem_cons_self

theorem hasEnd_of_getLast? {tokens : List Token}
    (h : tokens.getLast?.map Token.kind = some .endOfInput) : HasEnd tokens := by
  obtain ⟨last, hmem, hkind⟩ := Option.map_eq_some_iff.1 h
  exact ⟨last, List.mem_of_getLast? hmem, hkind⟩

/-- Tokens that close with the end of the input are parsed, or one of them is to blame. -/
theorem blames_of_parseTokens {tokens : List Token} {e : Error}
    (hlast : tokens.getLast?.map Token.kind = some .endOfInput)
    (h : parseTokens tokens = .error e) : e.Blames tokens := by
  rw [parseTokens] at h
  split at h
  · exact (runs_program (hasEnd_of_getLast? hlast)).advances.error (map_eq_error.1 h)
  · next hends =>
    obtain ⟨last, hmem, hkind⟩ := Option.map_eq_some_iff.1 hlast
    exact absurd (by simp [hmem, hkind]) hends

end TapeCompiler.Grammar
