import TapeCompiler.Proofs.Source.Parsing
import TapeCompiler.Proofs.Source.Scanning
/-!
# What is spelled is read

A rule that meets a spelling of its tree reads just that spelling and gives the tree back, if no
token follows that would carry the tree on: `&&` behind a condition, `else` behind a branch. Its
fuel has to be four times the number of tokens in the spelling, or a little more (`readsBlock`). So
the tokens that are parsed are the spellings of programs, and each of them spells one program only
(`parseTokens_iff_spelled`).
-/
namespace TapeCompiler.Grammar

open TapeCompiler.Spelling

/-! ## Rules without blocks -/

section

variable {us rest more : List Token} {t : Token}

theorem expect_append {kind : TokenKind} (h : us ∈ ofKind kind) (e : Expectation)
    (rest : List Token) : ∃ u, expect kind e (us ++ rest) = .ok (u, rest) := by
  obtain ⟨u, rfl, hkind⟩ := h
  exact ⟨u, if_pos hkind⟩

theorem keyword_append {word : String} (h : us ∈ ofWord word) :
    keyword word (us ++ rest) = .ok ((), rest) := by
  obtain ⟨u, rfl, hword⟩ := h
  exact if_pos hword

theorem variableName_append {name : String} (h : us ∈ ofVariable name) :
    variableName (us ++ rest) = .ok (name, rest) := by
  obtain ⟨u, rfl, hkind, rfl, hreserved⟩ := h
  show variableName (u :: rest) = _
  rw [variableName, if_neg (not_not.2 hkind), if_neg hreserved]

theorem comparisonSign_append {test : Test} (h : us ∈ ofTest test) :
    comparisonSign (us ++ rest) = .ok (test, rest) := by
  cases test with
  | equal | notEqual =>
    obtain ⟨u, rfl, hkind⟩ := h
    show comparisonSign (u :: rest) = _
    rw [comparisonSign, hkind]

theorem number_append {n : Int} (h : us ∈ ofNumber n) : number (us ++ rest) = .ok (n, rest) := by
  obtain ⟨u, rfl, hkind, hvalue⟩ := h
  exact number_of_ok hkind hvalue rest

theorem comparison_append {c : Comparison} (h : us ∈ c.spellings) :
    comparison (us ++ rest) = .ok (c, rest) := by
  obtain ⟨_, ⟨us, hus, vs, hvs, rfl⟩, ws, hws, rfl⟩ := h
  simp only [List.append_assoc]
  exact bind_eq_ok.2 ⟨_, variableName_append hus, bind_eq_ok.2 ⟨_, comparisonSign_append hvs,
    bind_eq_ok.2 ⟨_, number_append hws, rfl⟩⟩⟩

theorem conditionWith_append {condition : Condition} {fuel : Nat} (h : us ∈ condition.spellings)
    (hfuel : us.length < fuel) (hand : t.kind ≠ .and) :
    conditionWith fuel (us ++ t :: more) = .ok (condition, t :: more) := by
  induction condition generalizing us fuel with
  | nil => exact absurd h (Language.notMem_zero us)
  | cons c others ih =>
    obtain ⟨fuel, rfl⟩ : ∃ n, fuel = n + 1 := ⟨fuel - 1, by omega⟩
    cases others with
    | nil =>
      refine bind_eq_ok.2 ⟨_, comparison_append h, ?_⟩
      exact if_neg hand
    | cons d others =>
      obtain ⟨_, ⟨us, hus, _, ⟨sign, rfl, hsign⟩, rfl⟩, vs, hvs, rfl⟩ := h
      simp only [List.length_append, List.length_singleton] at hfuel
      simp only [List.append_assoc]
      refine bind_eq_ok.2 ⟨_, comparison_append hus, (if_pos hsign).trans ?_⟩
      exact bind_eq_ok.2 ⟨_, ih hvs (by omega), rfl⟩

theorem condition_append {condition : Condition} (h : us ∈ condition.spellings)
    (hand : t.kind ≠ .and) :
    Grammar.condition (us ++ t :: more) = .ok (condition, t :: more) :=
  conditionWith_append h (by simp only [List.length_append]; omega) hand

theorem transfer_append {word name : String} {ws vs xs ys : List Token} (hws : ws ∈ ofWord word)
    (hvs : vs ∈ ofKind .openParen) (hxs : xs ∈ ofVariable name) (hys : ys ∈ ofKind .closeParen) :
    transfer (ws ++ vs ++ xs ++ ys ++ rest) =
      .ok (if word = "input" then .input name else .output name, rest) := by
  obtain ⟨w, rfl, hw⟩ := hws
  obtain ⟨u, hu⟩ := expect_append hvs (.openParenAfter w.text) (xs ++ (ys ++ rest))
  obtain ⟨v, hv⟩ := expect_append hys .closeParen rest
  simp only [List.append_assoc]
  refine bind_eq_ok.2 ⟨_, hu, bind_eq_ok.2 ⟨_, variableName_append hxs, bind_eq_ok.2 ⟨_, hv, ?_⟩⟩⟩
  rw [← (isKeyword_iff.1 hw).2]

theorem assignment_append {name : String} {value : Int}
    (h : us ∈ (Statement.assign name value).spellings) :
    assignment (us ++ rest) = .ok (.assign name value, rest) := by
  obtain ⟨_, ⟨us, hus, vs, hvs, rfl⟩, ws, hws, rfl⟩ := h
  obtain ⟨v, hv⟩ := expect_append hvs (.assignAfter name) (ws ++ rest)
  simp only [List.append_assoc]
  exact bind_eq_ok.2 ⟨_, variableName_append hus, bind_eq_ok.2 ⟨_, hv,
    bind_eq_ok.2 ⟨_, number_append hws, rfl⟩⟩⟩

end

/-! ## Rules with blocks -/

/-- A statement begins with a name that is not `else`. -/
theorem exists_first {statement : Statement} {us : List Token} (h : us ∈ statement.spellings) :
    ∃ u vs, us = u :: vs ∧ u.kind = .name ∧ isKeyword "else" u = false := by
  cases statement with
  | input name | output name =>
    obtain ⟨_, ⟨_, ⟨_, ⟨u, rfl, hu⟩, _, -, rfl⟩, _, -, rfl⟩, _, -, rfl⟩ := h
    refine ⟨u, _, rfl, (isKeyword_iff.1 hu).1, ?_⟩
    rw [eq_of_isKeyword hu]
    rfl
  | assign name value =>
    obtain ⟨_, ⟨_, ⟨u, rfl, hkind, rfl, hreserved⟩, _, -, rfl⟩, _, -, rfl⟩ := h
    refine ⟨u, _, rfl, hkind, Bool.eq_false_iff.2 fun helse => hreserved ?_⟩
    rw [(isKeyword_iff.1 helse).2]
    decide
  | move direction =>
    obtain ⟨u, rfl, hu⟩ := h
    refine ⟨u, [], rfl, (isKeyword_iff.1 hu).1, ?_⟩
    rw [eq_of_isKeyword hu]
    cases direction <;> rfl
  | loop condition body | branch condition body =>
    obtain ⟨_, ⟨_, ⟨u, rfl, hu⟩, _, -, rfl⟩, _, -, rfl⟩ := h
    refine ⟨u, _, rfl, (isKeyword_iff.1 hu).1, ?_⟩
    rw [eq_of_isKeyword hu]
    rfl
  | branchElse condition body otherwise =>
    obtain ⟨_, ⟨_, ⟨_, ⟨_, ⟨u, rfl, hu⟩, _, -, rfl⟩, _, -, rfl⟩, _, -, rfl⟩, _, -, rfl⟩ := h
    refine ⟨u, _, rfl, (isKeyword_iff.1 hu).1, ?_⟩
    rw [eq_of_isKeyword hu]
    rfl

/-- What a block is followed by. -/
def EndsBlock (t : Token) : Prop := t.kind = .endOfInput ∨ t.kind = .closeBrace

theorem exists_next {block : Block} {us more : List Token} {t : Token}
    (h : us ∈ Block.spellings block) (ht : isKeyword "else" t = false) :
    ∃ u vs, us ++ t :: more = u :: vs ∧ isKeyword "else" u = false := by
  cases block with
  | nil =>
    obtain rfl : us = [] := h
    exact ⟨t, more, rfl, ht⟩
  | cons statement rest =>
    obtain ⟨us, hus, vs, -, rfl⟩ := h
    obtain ⟨u, us, rfl, -, hu⟩ := exists_first hus
    exact ⟨u, _, rfl, hu⟩

theorem exists_if {block : Block} {us : List Token} (hbranch : Block.isBranch block = true)
    (h : us ∈ Block.spellings block) : ∃ u vs, us = u :: vs ∧ isKeyword "if" u = true := by
  unfold Block.isBranch at hbranch
  split at hbranch
  · obtain ⟨_, ⟨_, ⟨_, ⟨u, rfl, hu⟩, _, -, rfl⟩, _, -, rfl⟩, _, -, rfl⟩ := h
    exact ⟨u, _, rfl, hu⟩
  · obtain ⟨_, ⟨_, ⟨_, ⟨_, ⟨_, ⟨u, rfl, hu⟩, _, -, rfl⟩, _, -, rfl⟩, _, -, rfl⟩, _, -, rfl⟩,
      _, -, rfl⟩ := h
    exact ⟨u, _, rfl, hu⟩
  · cases hbranch

theorem EndsBlock.not_else {t : Token} (h : EndsBlock t) : isKeyword "else" t = false := by
  rcases h with h | h <;> simp [isKeyword, h]

/-- With enough fuel a block is read from its spellings. -/
def ReadsBlock (block : Block) : Prop :=
  ∀ (us more : List Token) (t : Token) (fuel : Nat), us ∈ Block.spellings block → EndsBlock t →
    4 * us.length < fuel → blockWith fuel (us ++ t :: more) = .ok (block, t :: more)

section

variable {body : Block} {cond : Condition} {us rest : List Token} {fuel : Nat}

theorem bracedWith_append (hbody : ReadsBlock body)
    (h : us ∈ Spelling.braced (Block.spellings body)) (hfuel : 4 * us.length ≤ fuel + 6) :
    bracedWith fuel (us ++ rest) = .ok (body, rest) := by
  obtain ⟨_, ⟨_, ⟨opening, rfl, hopening⟩, us, hus, rfl⟩, _, ⟨closing, rfl, hclosing⟩, rfl⟩ := h
  simp only [List.length_append, List.length_singleton] at hfuel
  obtain ⟨fuel, rfl⟩ : ∃ n, fuel = n + 1 := ⟨fuel - 1, by omega⟩
  simp only [List.append_assoc]
  exact bind_eq_ok.2 ⟨(opening, _), if_pos hopening,
    bind_eq_ok.2 ⟨(body, _), hbody _ _ _ _ hus (.inr hclosing) (by omega),
      bind_eq_ok.2 ⟨(closing, _), if_pos hclosing, rfl⟩⟩⟩

theorem exists_openBrace {L : Language Token} (h : us ∈ Spelling.braced L) :
    ∃ opening vs, us = opening :: vs ∧ opening.kind = .openBrace := by
  obtain ⟨_, ⟨_, ⟨opening, rfl, hopening⟩, _, -, rfl⟩, _, -, rfl⟩ := h
  exact ⟨opening, _, rfl, hopening⟩

/-- A condition is read up to the brace behind it. -/
theorem condition_append_braced {L : Language Token} {vs : List Token} (h : us ∈ cond.spellings)
    (hvs : vs ∈ Spelling.braced L) : condition (us ++ (vs ++ rest)) = .ok (cond, vs ++ rest) := by
  obtain ⟨opening, vs, rfl, hopening⟩ := exists_openBrace hvs
  exact condition_append h (by simp [hopening])

theorem branchWith_append (hbody : ReadsBlock body)
    (h : us ∈ ofWord "if" * cond.spellings * Spelling.braced (Block.spellings body))
    (hfuel : 4 * us.length ≤ fuel + 6) :
    branchWith (fuel + 1) (us ++ rest) = branchTailWith fuel cond body rest := by
  obtain ⟨_, ⟨ws, hws, cs, hcs, rfl⟩, bs, hbs, rfl⟩ := h
  simp only [List.length_append] at hfuel
  have hbraced : bracedWith fuel (bs ++ rest) = .ok (body, rest) :=
    bracedWith_append hbody hbs (by omega)
  rw [branchWith_eq, List.append_assoc, List.append_assoc, keyword_append hws]
  show (condition (cs ++ (bs ++ rest)) >>= _) = _
  rw [condition_append_braced hcs hbs]
  show (bracedWith fuel (bs ++ rest) >>= _) = _
  rw [hbraced]
  rfl

theorem otherwiseWith_append {otherwise : Block} (hotherwise : ReadsBlock otherwise)
    (h : us ∈ Spelling.braced (Block.spellings otherwise)) (hfuel : 4 * us.length ≤ fuel + 6) :
    otherwiseWith fuel cond body (us ++ rest) = .ok (.branchElse cond body otherwise, rest) := by
  have hbraced : bracedWith fuel (us ++ rest) = .ok (otherwise, rest) :=
    bracedWith_append hotherwise h hfuel
  obtain ⟨opening, vs, rfl, hopening⟩ := exists_openBrace h
  refine (if_neg (by simp [isKeyword, hopening])).trans ?_
  exact bind_eq_ok.2 ⟨_, hbraced, rfl⟩

theorem loopWith_append (hbody : ReadsBlock body)
    (h : us ∈ (Statement.loop cond body).spellings) (hfuel : 4 * us.length ≤ fuel + 6) :
    loopWith (fuel + 1) (us ++ rest) = .ok (.loop cond body, rest) := by
  obtain ⟨_, ⟨ws, hws, cs, hcs, rfl⟩, bs, hbs, rfl⟩ := h
  simp only [List.length_append] at hfuel
  simp only [List.append_assoc]
  exact bind_eq_ok.2 ⟨_, keyword_append hws, bind_eq_ok.2 ⟨_, condition_append_braced hcs hbs,
    bind_eq_ok.2 ⟨_, bracedWith_append hbody hbs (by omega), rfl⟩⟩⟩

end

-- The induction is on the tree. Four calls lie between a block and the block inside it, and the
-- brace between them is read, so fuel is compared with four times the number of tokens: what is
-- added to it tells how many of the four calls have been made.
mutual

theorem statementWith_append : ∀ (statement : Statement) {us more : List Token} {t : Token}
    {fuel : Nat}, us ∈ statement.spellings → isKeyword "else" t = false →
      4 * us.length ≤ fuel + 2 →
        statementWith (fuel + 2) (us ++ t :: more) = .ok (statement, t :: more)
  | .input name, us, more, t, fuel, h, _, _ => by
    obtain ⟨_, ⟨_, ⟨_, ⟨w, rfl, hw⟩, vs, hvs, rfl⟩, xs, hxs, rfl⟩, ys, hys, rfl⟩ := h
    exact (statementWith_transfer (.inl hw)).trans (transfer_append ⟨w, rfl, hw⟩ hvs hxs hys)
  | .output name, us, more, t, fuel, h, _, _ => by
    obtain ⟨_, ⟨_, ⟨_, ⟨w, rfl, hw⟩, vs, hvs, rfl⟩, xs, hxs, rfl⟩, ys, hys, rfl⟩ := h
    exact (statementWith_transfer (.inr hw)).trans (transfer_append ⟨w, rfl, hw⟩ hvs hxs hys)
  | .assign name value, us, more, t, fuel, h, _, _ => by
    have hassignment : assignment (us ++ t :: more) = .ok (.assign name value, t :: more) :=
      assignment_append h
    obtain ⟨_, ⟨_, ⟨u, rfl, hkind, rfl, hreserved⟩, vs, -, rfl⟩, ws, -, rfl⟩ := h
    exact (statementWith_of_not_reserved hkind hreserved).trans hassignment
  | .move direction, us, more, t, fuel, h, _, _ => by
    obtain ⟨u, rfl, hu⟩ := h
    exact statementWith_move hu
  | .loop condition body, us, more, t, fuel, h, _, hfuel => by
    have hloop : loopWith (fuel + 1) (us ++ t :: more) = .ok (.loop condition body, t :: more) :=
      loopWith_append (readsBlock body) h (by omega)
    obtain ⟨_, ⟨_, ⟨w, rfl, hw⟩, cs, -, rfl⟩, bs, -, rfl⟩ := h
    exact (statementWith_while hw).trans hloop
  | .branch condition body, us, more, t, fuel, h, helse, hfuel => by
    have hbranch : branchWith (fuel + 1) (us ++ t :: more) =
        branchTailWith fuel condition body (t :: more) :=
      branchWith_append (readsBlock body) h (by omega)
    obtain ⟨_, ⟨_, ⟨w, rfl, hw⟩, cs, -, rfl⟩, bs, -, rfl⟩ := h
    exact (statementWith_if hw).trans (hbranch.trans (if_neg (by simp [helse])))
  | .branchElse condition body otherwise, us, more, t, fuel, h, helse, hfuel => by
    obtain ⟨_, ⟨hs, hhs, _, ⟨e, rfl, he⟩, rfl⟩, os, hos, rfl⟩ := h
    simp only [List.length_append, List.length_singleton] at hfuel
    have hbranch : branchWith (fuel + 1) (hs ++ e :: (os ++ t :: more)) =
        branchTailWith fuel condition body (e :: (os ++ t :: more)) :=
      branchWith_append (readsBlock body) hhs (by omega)
    have hotherwise : otherwiseWith fuel condition body (os ++ t :: more) =
        .ok (.branchElse condition body otherwise, t :: more) := by
      -- The block behind `else` stands in braces, or it is a branch and stands there as it is.
      rcases hos with hos | hos
      · exact otherwiseWith_append (readsBlock otherwise) hos (by omega)
      · split at hos
        · next hisBranch => exact nested_append otherwise hisBranch hos helse (by omega)
        · exact absurd hos (Language.notMem_zero os)
    obtain ⟨_, ⟨_, ⟨w, rfl, hw⟩, cs, -, rfl⟩, bs, -, rfl⟩ := hhs
    simp only [List.append_assoc] at hbranch ⊢
    exact (statementWith_if hw).trans (hbranch.trans ((if_pos he).trans hotherwise))

theorem readsBlock : ∀ block : Block, ReadsBlock block
  | [], us, more, t, fuel, h, hend, hfuel => by
    obtain rfl : us = [] := h
    obtain ⟨fuel, rfl⟩ : ∃ n, fuel = n + 1 := ⟨fuel - 1, by omega⟩
    exact if_pos hend
  | statement :: rest, us, more, t, fuel, h, hend, hfuel => by
    obtain ⟨us, hus, vs, hvs, rfl⟩ := h
    obtain ⟨u, ws, hws, hname, -⟩ := exists_first hus
    obtain ⟨next, others, hnext, helse⟩ : ∃ next others, vs ++ t :: more = next :: others ∧
        isKeyword "else" next = false := exists_next hvs hend.not_else
    have hlength : us.length = ws.length + 1 := by rw [hws, List.length_cons]
    rw [List.length_append] at hfuel
    obtain ⟨fuel, rfl⟩ : ∃ n, fuel = n + 3 := ⟨fuel - 3, by omega⟩
    have hstatement : statementWith (fuel + 2) (us ++ (vs ++ t :: more)) =
        .ok (statement, vs ++ t :: more) := by
      rw [hnext]
      exact statementWith_append statement hus helse (by omega)
    have hrest : blockWith (fuel + 2) (vs ++ t :: more) = .ok (rest, t :: more) :=
      readsBlock rest vs more t (fuel + 2) hvs hend (by omega)
    rw [List.append_assoc, hws, List.cons_append, blockWith, if_neg (by simp [hname])]
    rw [hws, List.cons_append] at hstatement
    exact bind_eq_ok.2 ⟨_, hstatement, bind_eq_ok.2 ⟨_, hrest, rfl⟩⟩

/-- A branch behind an `else` may stand without braces. -/
theorem nested_append : ∀ (otherwise : Block) {condition : Condition} {body : Block}
    {us more : List Token} {t : Token} {fuel : Nat}, Block.isBranch otherwise = true →
      us ∈ Block.spellings otherwise → isKeyword "else" t = false → 4 * us.length ≤ fuel + 1 →
        otherwiseWith fuel condition body (us ++ t :: more) =
          .ok (.branchElse condition body otherwise, t :: more)
  | [], _, _, _, _, _, _, hbranch, _, _, _ => by cases hbranch
  | _ :: _ :: _, _, _, _, _, _, _, hbranch, _, _, _ => by simp [Block.isBranch] at hbranch
  | [statement], condition, body, us, more, t, fuel, hbranch, h, helse, hfuel => by
    obtain ⟨u, vs, hvs, hif⟩ := exists_if hbranch h
    rw [Block.spellings, Block.spellings, mul_one] at h
    have hlength : us.length = vs.length + 1 := by rw [hvs, List.length_cons]
    obtain ⟨fuel, rfl⟩ : ∃ n, fuel = n + 1 := ⟨fuel - 1, by omega⟩
    have hstatement : statementWith (fuel + 2) (us ++ t :: more) = .ok (statement, t :: more) :=
      statementWith_append statement h helse (by omega)
    rw [hvs, List.cons_append, statementWith_if hif] at hstatement
    rw [hvs, List.cons_append]
    exact (if_pos hif).trans (bind_eq_ok.2 ⟨_, hstatement, rfl⟩)

end

/-! ## Programs -/

/-- The spellings of programs are parsed. -/
theorem parseTokens_of_spelled {tokens : List Token} {program : Block}
    (h : tokens ∈ programSpellings program) : parseTokens tokens = .ok program := by
  obtain ⟨us, hus, _, ⟨last, rfl, hlast⟩, rfl⟩ := h
  have hblock : block (us ++ [last]) = .ok (program, [last]) :=
    readsBlock program us [] last _ hus (.inl hlast) (by
      simp only [fuelFor, List.length_append]
      omega)
  have hprogram : Grammar.program (us ++ [last]) = .ok (program, [last]) :=
    bind_eq_ok.2 ⟨_, hblock, if_pos hlast⟩
  have hend : (us ++ [last]).getLast?.any (·.kind == .endOfInput) = true := by
    simp [hlast]
  rw [parseTokens, if_pos hend, hprogram]
  rfl

/-- Tokens as the scanner makes them: the end of the input closes them and stands nowhere else, and
a number is a run of digits that is not too long to be read. -/
structure Proper (tokens : List Token) : Prop where
  ends : tokens.getLast?.map Token.kind = some .endOfInput
  endsOnce : ∀ t ∈ tokens.dropLast, t.kind ≠ .endOfInput
  numbers : ∀ t ∈ tokens, t.kind = .number →
    Text.isDigits t.text.toList = true ∧ t.text.length ≤ Text.digitLimit

/-- Nothing stands behind the end of the input. -/
theorem Proper.eq_nil {used more : List Token} {t : Token} (h : Proper (used ++ [t] ++ more))
    (ht : t.kind = .endOfInput) : more = [] := by
  by_contra hmore
  have hmem : t ∈ (used ++ [t] ++ more).dropLast := by
    rw [List.dropLast_append_of_ne_nil hmore]
    simp
  exact h.endsOnce t hmem ht

theorem Proper.readInteger {tokens : List Token} (h : Proper tokens) {t : Token} (ht : t ∈ tokens)
    (hkind : t.kind = .number) :
    Text.readInteger t.text = .ok (Text.digitsValue t.text.toList : Int) := by
  obtain ⟨hdigits, hlength⟩ := h.numbers t ht hkind
  simp only [Text.isDigits, Bool.and_eq_true, Bool.not_eq_true', List.isEmpty_eq_false_iff,
    List.all_eq_true] at hdigits
  have hread := Scan.readInteger_digits hdigits.1 hdigits.2 (by rwa [String.length_toList])
  rwa [String.ofList_toList] at hread

theorem Proper.mem_ofNumber_iff {tokens : List Token} (h : Proper tokens) {t : Token}
    (ht : t ∈ tokens) (hkind : t.kind = .number) {n : Int} :
    [t] ∈ ofNumber n ↔ n = Text.digitsValue t.text.toList := by
  constructor
  · rintro ⟨u, hu, -, hvalue⟩
    obtain rfl : t = u := List.singleton_inj.1 hu
    exact Except.ok.inj (hvalue.symm.trans (h.readInteger ht hkind))
  · rintro rfl
    exact ⟨t, rfl, hkind, h.readInteger ht hkind⟩

/-- **The parser is the grammar.** Proper tokens are parsed as a program exactly when they spell it;
they spell no other program; and their numbers stand for what their digits say. -/
theorem parseTokens_iff_spelled {tokens : List Token} (h : Proper tokens) :
    (∀ program, parseTokens tokens = .ok program ↔ tokens ∈ programSpellings program) ∧
      (∀ program other, tokens ∈ programSpellings program → tokens ∈ programSpellings other →
        other = program) ∧
      ∀ t ∈ tokens, t.kind = .number →
        ∀ n, [t] ∈ ofNumber n ↔ n = Text.digitsValue t.text.toList := by
  refine ⟨fun program => ⟨fun hparse => ?_, parseTokens_of_spelled⟩, ?_, ?_⟩
  · obtain ⟨used, hused, more, rfl⟩ := spelled_of_parseTokens hparse
    obtain ⟨us, hus, _, ⟨t, rfl, ht⟩, rfl⟩ := hused
    obtain rfl := h.eq_nil ht
    rw [List.append_nil]
    exact Language.append_mem_mul hus ⟨t, rfl, ht⟩
  · intro program other hprogram hother
    have hsame := (parseTokens_of_spelled hother).symm.trans (parseTokens_of_spelled hprogram)
    exact Except.ok.inj hsame
  · intro t ht hkind n
    exact h.mem_ofNumber_iff ht hkind

theorem parseTokens_iff_spelled_elseIf :
    ∃ tokens : List Token,
      tokens.map Token.content =
        [(.name, "if"), (.name, "x"), (.equal, "=="), (.number, "0"), (.openBrace, "\x7b"),
          (.closeBrace, "\x7d"), (.name, "else"), (.name, "if"), (.name, "x"), (.equal, "=="),
          (.number, "1"), (.openBrace, "\x7b"), (.closeBrace, "\x7d"), (.endOfInput, "")] ∧
      Proper tokens ∧
      ∀ program, tokens ∈ programSpellings program ↔
        program = [.branchElse [⟨"x", .equal, 0⟩] [] [.branch [⟨"x", .equal, 1⟩] []]] := by
  refine ⟨[⟨.name, "if", ⟨1, 1⟩⟩, ⟨.name, "x", ⟨1, 4⟩⟩, ⟨.equal, "==", ⟨1, 6⟩⟩,
    ⟨.number, "0", ⟨1, 9⟩⟩, ⟨.openBrace, "\x7b", ⟨1, 11⟩⟩, ⟨.closeBrace, "\x7d", ⟨1, 13⟩⟩,
    ⟨.name, "else", ⟨1, 15⟩⟩, ⟨.name, "if", ⟨1, 20⟩⟩, ⟨.name, "x", ⟨1, 23⟩⟩,
    ⟨.equal, "==", ⟨1, 25⟩⟩, ⟨.number, "1", ⟨1, 28⟩⟩, ⟨.openBrace, "\x7b", ⟨1, 30⟩⟩,
    ⟨.closeBrace, "\x7d", ⟨1, 32⟩⟩, ⟨.endOfInput, "", ⟨1, 33⟩⟩], rfl, ?_⟩
  refine (and_iff_left_of_imp fun hproper program => ?_).2 ⟨rfl, by decide, by decide⟩
  obtain ⟨hparse, hunique, -⟩ := parseTokens_iff_spelled hproper
  have hspelled :=
    (hparse [.branchElse [⟨"x", .equal, 0⟩] [] [.branch [⟨"x", .equal, 1⟩] []]]).1 rfl
  constructor
  · exact hunique _ program hspelled
  · rintro rfl
    exact hspelled

end TapeCompiler.Grammar
