import TapeCompiler.Proofs.Except
import TapeCompiler.Proofs.Source.Spelling
/-!
# What settles a reading

A rule takes its tokens from left to right and stops at the first one that it cannot use. So what it
makes of tokens is settled by those that it has read and the one behind them: tokens that begin with
the same contents are read as the same tree, or not at all, whatever follows and however much fuel
there is. And wherever a rule stops, what it has read can be completed to a spelling (`Settled`).

Rules are put together from steps, and every way of putting them together keeps this.
-/
namespace TapeCompiler

/-- What the grammar sees of a token: all but its place. -/
def Token.content (t : Token) : TokenKind × String := (t.kind, t.text)

namespace Grammar

open TapeCompiler.Spelling

variable {α β : Type}

theorem content_eq {t u : Token} : u.content = t.content ↔ u.kind = t.kind ∧ u.text = t.text :=
  Prod.mk_inj

theorem isKeyword_congr {t u : Token} (h : u.content = t.content) (word : String) :
    isKeyword word u = isKeyword word t := by
  obtain ⟨hkind, htext⟩ := content_eq.1 h
  rw [isKeyword, hkind, htext, isKeyword]

/-! ## Beginnings -/

/-- The tokens begin a spelling. -/
def Viable (after : α → Language Token) (tokens : List Token) : Prop :=
  ∃ more a, tokens ++ more ∈ after a

theorem Viable.of_append {after : α → Language Token} {tokens more : List Token}
    (h : Viable after (tokens ++ more)) : Viable after tokens := by
  obtain ⟨others, a, hmem⟩ := h
  exact ⟨more ++ others, a, List.append_assoc .. ▸ hmem⟩

theorem Viable.mono {after after' : α → Language Token} {tokens : List Token}
    (h : Viable after tokens) (hafter : ∀ a, ∀ ts ∈ after a, ts ∈ after' a) :
    Viable after' tokens := by
  obtain ⟨more, a, hmem⟩ := h
  exact ⟨more, a, hafter a _ hmem⟩

theorem viable_of_one {after : α → Language Token} (h : Viable after []) :
    ∀ read ∈ (1 : Language Token), Viable after read := by
  rintro _ rfl
  exact h

/-- The first token of `tokens`, if there is one, has the content of the first of `others`. -/
def SameHead (others tokens : List Token) : Prop :=
  ∀ t ∈ tokens.head?, ∃ u ∈ others.head?, u.content = t.content

theorem sameHead_cons {t u : Token} (h : u.content = t.content) (us ts : List Token) :
    SameHead (u :: us) (t :: ts) := by
  rintro _ ⟨⟩
  exact ⟨u, rfl, h⟩

theorem SameHead.append {us ts others tokens : List Token}
    (h : us.map Token.content = ts.map Token.content) (hhead : SameHead others tokens) :
    SameHead (us ++ others) (ts ++ tokens) := by
  cases ts with
  | nil =>
    rw [List.map_nil, List.map_eq_nil_iff] at h
    rw [h]
    exact hhead
  | cons t ts =>
    obtain ⟨u, us, rfl, hu, -⟩ := List.map_eq_cons_iff.1 h
    exact sameHead_cons hu _ _

/-! ## Rules -/

abbrev Rule (α : Type) := List Token → Except Error (α × List Token)

/-- What is known of the `result` that a rule has for `tokens`, where a member of `before` has been
read already and a member of `after` is to be completed. The rule is compared with itself on other
tokens, where `again` tells for each fuel what it makes of them. -/
structure Settled (before : Language Token) (after : α → Language Token) (tokens : List Token)
    (result : Except Error (α × List Token)) (again : Nat → Rule α) : Prop where
  viable : ∀ read ∈ before, Viable after read
  /-- Where the rule succeeds it has completed a spelling. Other tokens that begin alike, the one
  behind the spelling included, are read as the same tree if they are read. -/
  ok : ∀ {a rest}, result = .ok (a, rest) → ∃ used, tokens = used ++ rest ∧
    (∀ read ∈ before, read ++ used ∈ after a) ∧
    ∀ {us others fuel x}, us.map Token.content = used.map Token.content →
      SameHead others rest → again fuel (us ++ others) = .ok x → x = (a, others)
  /-- Where the rule meets a token that it cannot use, it could have gone on with another one. Other
  tokens that begin alike, that one included, are not read. -/
  error : ∀ {e t}, result = .error (.unexpected e t) → ∃ used rest, tokens = used ++ t :: rest ∧
    (∀ read ∈ before, Viable after (read ++ used)) ∧
    ∀ {us u others fuel x}, us.map Token.content = used.map Token.content →
      u.content = t.content → again fuel (us ++ u :: others) ≠ .ok x

namespace Settled

variable {before M : Language Token} {L : α → Language Token} {after after' : β → Language Token}
  {tokens more : List Token} {t : Token} {result : Except Error (β × List Token)}
  {again again' : Nat → Rule β}

/-! ## Ends of rules -/

theorem pure {b : β} (h : ∀ read ∈ before, read ∈ after b) :
    Settled before after tokens (.ok (b, tokens)) fun _ us => .ok (b, us) where
  viable read hread := ⟨[], b, (List.append_nil read).symm ▸ h read hread⟩
  ok hok := by
    cases hok
    refine ⟨[], rfl, fun read hread => (List.append_nil read).symm ▸ h read hread, ?_⟩
    intro us others _ x hus _ hx
    cases hx
    rw [List.map_nil, List.map_eq_nil_iff] at hus
    rw [hus, List.nil_append]
  error herror := by cases herror

/-- A failure that is not the fault of a token says nothing about tokens. -/
theorem fails {error : Error} (h : ∀ read ∈ before, Viable after read)
    (herror : ∀ e t, error ≠ .unexpected e t) :
    Settled before after tokens (.error error) again where
  viable := h
  ok hok := by cases hok
  error h' := absurd (Except.error.inj h') (herror _ _)

theorem reject {e : Expectation} (h : ∀ read ∈ before, Viable after read)
    (hagain : ∀ {fuel u us x}, u.content = t.content → again fuel (u :: us) ≠ .ok x) :
    Settled before after (t :: more) (.error (.unexpected e t)) again where
  viable := h
  ok hok := by cases hok
  error herror := by
    cases herror
    refine ⟨[], more, rfl, fun read hread => (List.append_nil read).symm ▸ h read hread, ?_⟩
    intro us u others fuel x hus hu
    rw [List.map_nil, List.map_eq_nil_iff] at hus
    rw [hus]
    exact hagain hu

/-! ## Other languages, other ways to read again -/

theorem mono (h : Settled before after tokens result again)
    (hafter : ∀ b, ∀ ts ∈ after b, ts ∈ after' b) : Settled before after' tokens result again where
  viable read hread := (h.viable read hread).mono hafter
  ok hok := by
    obtain ⟨used, htokens, hused, hsame⟩ := h.ok hok
    exact ⟨used, htokens, fun read hread => hafter _ _ (hused read hread), hsame⟩
  error herror := by
    obtain ⟨used, rest, htokens, hviable, hsame⟩ := h.error herror
    exact ⟨used, rest, htokens, fun read hread => (hviable read hread).mono hafter, hsame⟩

/-- It is enough to look at readings that succeed, and at tokens with the same first one. -/
theorem of_again (h : Settled before after tokens result again)
    (hagain : ∀ {fuel us x}, SameHead us tokens → again' fuel us = .ok x →
      ∃ fuel', again fuel' us = .ok x) : Settled before after tokens result again' where
  viable := h.viable
  ok hok := by
    obtain ⟨used, rfl, hused, hsame⟩ := h.ok hok
    refine ⟨used, rfl, hused, ?_⟩
    intro us others fuel x hus hhead hx
    obtain ⟨fuel', hx⟩ := hagain (.append hus hhead) hx
    exact hsame hus hhead hx
  error herror := by
    obtain ⟨used, rest, rfl, hviable, hsame⟩ := h.error herror
    refine ⟨used, rest, rfl, hviable, ?_⟩
    intro us u others fuel x hus hu hx
    obtain ⟨fuel', hx⟩ := hagain (.append hus (sameHead_cons hu others rest)) hx
    exact hsame hus hu hx

theorem of_head (h : Settled before after (t :: more) result again)
    (hagain : ∀ {fuel u us x}, u.content = t.content → again' fuel (u :: us) = .ok x →
      ∃ fuel', again fuel' (u :: us) = .ok x) :
    Settled before after (t :: more) result again' := by
  refine h.of_again fun hhead hx => ?_
  obtain ⟨u, hu, hcontent⟩ := hhead t rfl
  obtain ⟨us, rfl⟩ := List.head?_eq_some_iff.1 hu
  exact hagain hcontent hx

/-- Without fuel nothing is read. -/
theorem succ (h : Settled before after tokens result fun fuel => again (fuel + 1))
    (hzero : ∀ {us x}, again 0 us ≠ .ok x) : Settled before after tokens result again := by
  refine h.of_again fun {fuel us x} _ hx => ?_
  cases fuel with
  | zero => exact absurd hx hzero
  | succ fuel => exact ⟨fuel, hx⟩

/-! ## Steps -/

/-- One token is read, and then the others. -/
theorem step (ht : [t] ∈ M) (h : Settled (before * M) after more result again)
    (hagain : ∀ {fuel u us x}, u.content = t.content → again' fuel (u :: us) = .ok x →
      ∃ fuel', again fuel' us = .ok x) :
    Settled before after (t :: more) result again' where
  viable read hread := (h.viable _ (Language.append_mem_mul hread ht)).of_append
  ok hok := by
    obtain ⟨used, rfl, hused, hsame⟩ := h.ok hok
    refine ⟨t :: used, rfl, fun read hread => ?_, ?_⟩
    · rw [← List.singleton_append, ← List.append_assoc]
      exact hused _ (Language.append_mem_mul hread ht)
    · intro us others fuel x hus hhead hx
      obtain ⟨u, us, rfl, hu, hus⟩ := List.map_eq_cons_iff.1 hus
      obtain ⟨fuel', hx⟩ := hagain hu hx
      exact hsame hus hhead hx
  error herror := by
    obtain ⟨used, rest, rfl, hviable, hsame⟩ := h.error herror
    refine ⟨t :: used, rest, rfl, fun read hread => ?_, ?_⟩
    · rw [← List.singleton_append, ← List.append_assoc]
      exact hviable _ (Language.append_mem_mul hread ht)
    · intro us u others fuel x hus hu hx
      obtain ⟨v, us, rfl, hv, hus⟩ := List.map_eq_cons_iff.1 hus
      obtain ⟨fuel', hx⟩ := hagain hv hx
      exact hsame hus hu hx

/-- One rule after another. -/
theorem bind {first : Except Error (α × List Token)}
    {next : α × List Token → Except Error (β × List Token)} {firstAgain : Nat → Rule α}
    {nextAgain : Nat → α × List Token → Except Error (β × List Token)}
    (h : Settled 1 L tokens first firstAgain)
    (h' : ∀ a rest, Settled (before * L a) after rest (next (a, rest))
      fun fuel us => nextAgain fuel (a, us)) :
    Settled before after tokens (first >>= next)
      fun fuel us => firstAgain fuel us >>= nextAgain fuel where
  viable read hread := by
    obtain ⟨more, a, hmore⟩ := h.viable [] rfl
    exact ((h' a []).viable _ (Language.append_mem_mul hread hmore)).of_append
  ok hok := by
    obtain ⟨⟨a, middle⟩, hfirst, hnext⟩ := bind_eq_ok.1 hok
    obtain ⟨used, rfl, hused, hsame⟩ := h.ok hfirst
    obtain ⟨used', rfl, hused', hsame'⟩ := (h' a middle).ok hnext
    refine ⟨used ++ used', (List.append_assoc ..).symm, fun read hread => ?_, ?_⟩
    · rw [← List.append_assoc]
      exact hused' _ (Language.append_mem_mul hread (hused [] rfl))
    · intro us others fuel x hus hhead hx
      rw [List.map_append] at hus
      obtain ⟨vs, ws, rfl, hvs, hws⟩ := List.map_eq_append_iff.1 hus
      obtain ⟨p, hp, hx⟩ := bind_eq_ok.1 hx
      rw [List.append_assoc] at hp
      cases hsame hvs (.append hws hhead) hp
      exact hsame' hws hhead hx
  error herror := by
    rcases bind_eq_error.1 herror with hfirst | ⟨⟨a, middle⟩, hfirst, hnext⟩
    · obtain ⟨used, rest, rfl, hviable, hsame⟩ := h.error hfirst
      refine ⟨used, rest, rfl, fun read hread => ?_, ?_⟩
      · -- What completes the first rule is completed further by the next one.
        obtain ⟨more, a, hmore⟩ := hviable [] rfl
        have hnext := (h' a []).viable _ (Language.append_mem_mul hread hmore)
        rw [List.nil_append, ← List.append_assoc] at hnext
        exact hnext.of_append
      · intro us u others fuel x hus hu hx
        obtain ⟨p, hp, -⟩ := bind_eq_ok.1 hx
        exact hsame hus hu hp
    · obtain ⟨used, rfl, hused, hsame⟩ := h.ok hfirst
      obtain ⟨used', rest, rfl, hviable, hsame'⟩ := (h' a middle).error hnext
      refine ⟨used ++ used', rest, (List.append_assoc ..).symm, fun read hread => ?_, ?_⟩
      · rw [← List.append_assoc]
        exact hviable _ (Language.append_mem_mul hread (hused [] rfl))
      · intro us u others fuel x hus hu hx
        rw [List.map_append] at hus
        obtain ⟨vs, ws, rfl, hvs, hws⟩ := List.map_eq_append_iff.1 hus
        obtain ⟨p, hp, hx⟩ := bind_eq_ok.1 hx
        rw [List.append_assoc] at hp
        cases hsame hvs (.append hws (sameHead_cons hu _ _)) hp
        exact hsame' hws hu hx

/-- A token of a given kind is read and its text is not looked at. -/
theorem expect {kind : TokenKind} {e : Expectation} {again : Nat → Expectation}
    {next : Token × List Token → Except Error (β × List Token)}
    {nextAgain : Nat → Token × List Token → Except Error (β × List Token)}
    (h : ∀ t rest, Settled (before * ofKind kind) after rest (next (t, rest))
      fun fuel us => nextAgain fuel (t, us))
    (hagain : ∀ fuel t u us, nextAgain fuel (u, us) = nextAgain fuel (t, us)) :
    Settled before after tokens (Grammar.expect kind e tokens >>= next)
      fun fuel us => Grammar.expect kind (again fuel) us >>= nextAgain fuel := by
  have hviable : ∀ read ∈ before, Viable after read := by
    intro read hread
    have hsample : [⟨kind, "", .start⟩] ∈ ofKind kind := ⟨_, rfl, rfl⟩
    exact ((h ⟨kind, "", .start⟩ []).viable _ (Language.append_mem_mul hread hsample)).of_append
  cases tokens with
  | nil => exact .fails hviable (by simp)
  | cons t more =>
    rw [Grammar.expect]
    split
    · next hkind =>
      have ht : [t] ∈ ofKind kind := ⟨t, rfl, hkind⟩
      refine .step ht (h t more) fun {fuel u us x} hu hx => ⟨fuel, ?_⟩
      obtain ⟨⟨v, rest⟩, hv, hx⟩ := bind_eq_ok.1 hx
      rw [Grammar.expect, if_pos ((content_eq.1 hu).1.trans hkind)] at hv
      cases hv
      rwa [hagain fuel t] at hx
    · next hkind =>
      refine .reject hviable fun {fuel u us x} hu hx => ?_
      obtain ⟨⟨v, rest⟩, hv, -⟩ := bind_eq_ok.1 hx
      rw [Grammar.expect, (content_eq.1 hu).1, if_neg hkind] at hv
      cases hv

end Settled

end Grammar

end TapeCompiler
