import TapeCompiler.Proofs.Source.Advance
/-!
# Tokens at other places

The grammar never asks where a token stands. So every rule reads tokens that have been moved as it
reads the tokens themselves, and an error names the token that has been moved
(`parseTokens_relocate`). Tokens of the same kinds and texts are the same tokens, moved: they are the
same program (`parseTokens_congr`), or the error is about the same of them (`unexpected_congr`).
-/
namespace TapeCompiler

/-- The token at another place. -/
def Token.relocate (place : Position → Position) (t : Token) : Token :=
  { t with position := place t.position }

namespace Grammar

variable {α β : Type} {place : Position → Position}

def Error.relocate (place : Position → Position) : Error → Error
  | unexpected e t => unexpected e (t.relocate place)
  | e => e

/-- What a rule gives, with the tokens moved. -/
def relocated (place : Position → Position) :
    Except Error (α × List Token) → Except Error (α × List Token)
  | .ok (a, rest) => .ok (a, rest.map (Token.relocate place))
  | .error e => .error (e.relocate place)

theorem relocated_bind {first again : Except Error (α × List Token)}
    {next next' : α × List Token → Except Error (β × List Token)}
    (h : again = relocated place first)
    (hnext : ∀ a rest, next' (a, rest.map (Token.relocate place)) =
      relocated place (next (a, rest))) :
    again >>= next' = relocated place (first >>= next) := by
  subst h
  cases first with
  | error e => rfl
  | ok pair => exact hnext pair.1 pair.2

/-! ## Rules without blocks -/

section

variable {tokens : List Token}

theorem keyword_relocate (word : String) :
    keyword word (tokens.map (Token.relocate place)) = relocated place (keyword word tokens) := by
  cases tokens with
  | nil => rfl
  | cons t more =>
    show (if isKeyword word t then _ else _) = relocated place (if isKeyword word t then _ else _)
    split <;> rfl

/-- The token that is read is moved too. -/
theorem expect_relocate_bind {kind : TokenKind} {e : Expectation}
    {next : Token × List Token → Except Error (β × List Token)}
    (hnext : ∀ t rest, next (t.relocate place, rest.map (Token.relocate place)) =
      relocated place (next (t, rest))) :
    expect kind e (tokens.map (Token.relocate place)) >>= next =
      relocated place (expect kind e tokens >>= next) := by
  cases tokens with
  | nil => rfl
  | cons t more =>
    by_cases hkind : t.kind = kind
    · have hmoved : expect kind e ((t :: more).map (Token.relocate place)) =
          .ok (t.relocate place, more.map (Token.relocate place)) := if_pos hkind
      have hread : expect kind e (t :: more) = .ok (t, more) := if_pos hkind
      rw [hmoved, hread]
      exact hnext t more
    · have hmoved : expect kind e ((t :: more).map (Token.relocate place)) =
          .error (.unexpected e (t.relocate place)) := if_neg hkind
      have hread : expect kind e (t :: more) = .error (.unexpected e t) := if_neg hkind
      rw [hmoved, hread]
      rfl

theorem variableName_relocate :
    variableName (tokens.map (Token.relocate place)) = relocated place (variableName tokens) := by
  cases tokens with
  | nil => rfl
  | cons t more =>
    show (if t.kind ≠ .name then _ else if t.text ∈ reservedWords then _ else _) =
      relocated place (if t.kind ≠ .name then _ else if t.text ∈ reservedWords then _ else _)
    split
    · rfl
    · split <;> rfl

theorem comparisonSign_relocate :
    comparisonSign (tokens.map (Token.relocate place)) =
      relocated place (comparisonSign tokens) := by
  cases tokens with
  | nil => rfl
  | cons t more =>
    obtain ⟨kind, text, position⟩ := t
    cases kind <;> rfl

theorem number_relocate :
    number (tokens.map (Token.relocate place)) = relocated place (number tokens) := by
  refine expect_relocate_bind fun t rest => ?_
  dsimp only [Token.relocate]
  cases Text.readInteger t.text <;> rfl

theorem comparison_relocate :
    comparison (tokens.map (Token.relocate place)) = relocated place (comparison tokens) :=
  relocated_bind variableName_relocate fun _ _ =>
    relocated_bind comparisonSign_relocate fun _ _ =>
      relocated_bind number_relocate fun _ _ => rfl

theorem conditionWith_relocate (fuel : Nat) :
    conditionWith fuel (tokens.map (Token.relocate place)) =
      relocated place (conditionWith fuel tokens) := by
  induction fuel generalizing tokens with
  | zero => rfl
  | succ fuel ih =>
    rw [conditionWith_eq, conditionWith_eq]
    refine relocated_bind comparison_relocate fun first rest => ?_
    cases rest with
    | nil => rfl
    | cons t more =>
      show (if t.kind = .and then _ else _) = relocated place (if t.kind = .and then _ else _)
      split
      · exact relocated_bind ih fun _ _ => rfl
      · rfl

theorem condition_relocate :
    condition (tokens.map (Token.relocate place)) = relocated place (condition tokens) := by
  rw [condition, List.length_map]
  exact conditionWith_relocate (tokens.length + 1)

theorem assignment_relocate :
    assignment (tokens.map (Token.relocate place)) = relocated place (assignment tokens) :=
  relocated_bind variableName_relocate fun _ _ =>
    expect_relocate_bind fun _ _ => relocated_bind number_relocate fun _ _ => rfl

theorem transfer_relocate :
    transfer (tokens.map (Token.relocate place)) = relocated place (transfer tokens) := by
  cases tokens with
  | nil => rfl
  | cons t more =>
    exact expect_relocate_bind fun _ _ => relocated_bind variableName_relocate fun _ _ =>
      expect_relocate_bind fun _ _ => rfl

end

/-! ## Rules with blocks -/

mutual

theorem blockWith_relocate : ∀ (fuel : Nat) (tokens : List Token),
    blockWith fuel (tokens.map (Token.relocate place)) = relocated place (blockWith fuel tokens)
  | 0, _ => rfl
  | _ + 1, [] => rfl
  | fuel + 1, t :: more => by
    show (if t.kind = .endOfInput ∨ t.kind = .closeBrace then _ else _) =
      relocated place (if t.kind = .endOfInput ∨ t.kind = .closeBrace then _ else _)
    split
    · rfl
    · exact relocated_bind (statementWith_relocate fuel (t :: more)) fun _ rest =>
        relocated_bind (blockWith_relocate fuel rest) fun _ _ => rfl

theorem bracedWith_relocate : ∀ (fuel : Nat) (tokens : List Token),
    bracedWith fuel (tokens.map (Token.relocate place)) = relocated place (bracedWith fuel tokens)
  | 0, _ => rfl
  | fuel + 1, _ => expect_relocate_bind fun _ rest =>
      relocated_bind (blockWith_relocate fuel rest) fun _ _ => expect_relocate_bind fun _ _ => rfl

theorem statementWith_relocate : ∀ (fuel : Nat) (tokens : List Token),
    statementWith fuel (tokens.map (Token.relocate place)) =
      relocated place (statementWith fuel tokens)
  | 0, _ => rfl
  | _ + 1, [] => rfl
  | fuel + 1, t :: more => by
    have hkeyword (word : String) : isKeyword word (t.relocate place) = isKeyword word t := rfl
    rw [List.map_cons]
    rcases statement_cases t with ht | ht | ht | ⟨direction, ht⟩ | ht | ht | ⟨hkind, ht⟩
    · rw [statementWith_of_not_name ht, @statementWith_of_not_name _ (t.relocate place) _ ht]
      rfl
    · rw [statementWith_if ht, statementWith_if (hkeyword _ ▸ ht)]
      exact branchWith_relocate fuel (t :: more)
    · rw [statementWith_while ht, statementWith_while (hkeyword _ ▸ ht)]
      exact loopWith_relocate fuel (t :: more)
    · rw [statementWith_move ht, statementWith_move (hkeyword _ ▸ ht)]
      rfl
    · rw [statementWith_transfer ht, statementWith_transfer (by simpa only [hkeyword] using ht)]
      exact @transfer_relocate place (t :: more)
    · rw [statementWith_else ht, statementWith_else (hkeyword _ ▸ ht)]
      rfl
    · rw [statementWith_of_not_reserved hkind ht,
        @statementWith_of_not_reserved _ (t.relocate place) _ hkind ht]
      exact @assignment_relocate place (t :: more)

theorem branchWith_relocate : ∀ (fuel : Nat) (tokens : List Token),
    branchWith fuel (tokens.map (Token.relocate place)) = relocated place (branchWith fuel tokens)
  | 0, _ => rfl
  | fuel + 1, tokens => by
    rw [branchWith_eq, branchWith_eq]
    refine relocated_bind (keyword_relocate "if") fun _ _ =>
      relocated_bind condition_relocate fun condition rest =>
        relocated_bind (bracedWith_relocate fuel rest) fun body rest => ?_
    cases rest with
    | nil => rfl
    | cons t more =>
      show (if isKeyword "else" t then _ else _) =
        relocated place (if isKeyword "else" t then _ else _)
      split
      · cases more with
        | nil => rfl
        | cons u others =>
          show (if isKeyword "if" u then _ else _) =
            relocated place (if isKeyword "if" u then _ else _)
          split
          · exact relocated_bind (branchWith_relocate fuel (u :: others)) fun _ _ => rfl
          · exact relocated_bind (bracedWith_relocate fuel (u :: others)) fun _ _ => rfl
      · rfl

theorem loopWith_relocate : ∀ (fuel : Nat) (tokens : List Token),
    loopWith fuel (tokens.map (Token.relocate place)) = relocated place (loopWith fuel tokens)
  | 0, _ => rfl
  | fuel + 1, _ => relocated_bind (keyword_relocate "while") fun _ _ =>
      relocated_bind condition_relocate fun _ rest =>
        relocated_bind (bracedWith_relocate fuel rest) fun _ _ => rfl

end

/-! ## Programs -/

theorem program_relocate (tokens : List Token) :
    program (tokens.map (Token.relocate place)) = relocated place (program tokens) := by
  rw [program, block, fuelFor, List.length_map]
  refine relocated_bind (blockWith_relocate (fuelFor tokens) tokens) fun statements rest => ?_
  cases rest with
  | nil => rfl
  | cons t more =>
    show (if t.kind = .endOfInput then _ else _) =
      relocated place (if t.kind = .endOfInput then _ else _)
    split <;> rfl

/-- **The grammar does not look at places.** Tokens that have been moved are the same program, and
in an error the token has been moved. -/
theorem parseTokens_relocate (place : Position → Position) (tokens : List Token) :
    parseTokens (tokens.map (Token.relocate place)) =
      (parseTokens tokens).mapError (Error.relocate place) := by
  have hlast : (tokens.map (Token.relocate place)).getLast?.any (·.kind == .endOfInput) =
      tokens.getLast?.any (·.kind == .endOfInput) := by
    rw [List.getLast?_map]
    cases tokens.getLast? <;> rfl
  rw [parseTokens, parseTokens, hlast, program_relocate]
  split
  · cases program tokens <;> rfl
  · rfl

/-! ## Tokens of the same kinds and texts -/

/-- The tokens at the places of their numbers. -/
def enumerated (tokens : List Token) : List Token :=
  tokens.zipIdx.map fun (t, i) => { t with position := ⟨i, 0⟩ }

/-- Tokens of the same kinds and texts are the same tokens, moved. -/
theorem exists_relocate {tokens others : List Token}
    (h : others.map Token.content = tokens.map Token.content) :
    ∃ place, others = (enumerated tokens).map (Token.relocate place) := by
  refine ⟨fun p => (others[p.line.toNat]?.map Token.position).getD p, ?_⟩
  apply List.ext_getElem?
  intro i
  have hi : others[i]?.map Token.content = tokens[i]?.map Token.content := by
    rw [← List.getElem?_map, h, List.getElem?_map]
  rw [enumerated, List.getElem?_map, List.getElem?_map, List.getElem?_zipIdx]
  cases ht : tokens[i]? with
  | none =>
    rw [ht, Option.map_none, Option.map_eq_none_iff] at hi
    exact hi
  | some t =>
    obtain ⟨u, hu, hcontent⟩ := Option.map_eq_some_iff.1 (hi.trans (by rw [ht]; rfl))
    obtain ⟨hkind, htext⟩ := content_eq.1 hcontent
    simp [hu, Token.relocate, ← hkind, ← htext]

section

variable {tokens others : List Token} (h : others.map Token.content = tokens.map Token.content)

include h

/-- Tokens of the same kinds and texts are the same program. -/
theorem parseTokens_congr {program : Block} (hparse : parseTokens tokens = .ok program) :
    parseTokens others = .ok program := by
  obtain ⟨place, hplace⟩ := exists_relocate (Eq.refl (tokens.map Token.content))
  obtain ⟨place', hplace'⟩ := exists_relocate h
  rw [hplace, parseTokens_relocate, mapError_eq_ok] at hparse
  rw [hplace', parseTokens_relocate, mapError_eq_ok]
  exact hparse

/-- An error about one of them is the same error about the token of the same number. -/
theorem unexpected_congr {e : Expectation} {t : Token}
    (herror : parseTokens tokens = .error (.unexpected e t)) :
    ∃ (i : Nat) (u : Token), tokens[i]? = some t ∧ others[i]? = some u ∧
      parseTokens others = .error (.unexpected e u) := by
  obtain ⟨place, hplace⟩ := exists_relocate (Eq.refl (tokens.map Token.content))
  obtain ⟨place', hplace'⟩ := exists_relocate h
  have hmoved := herror
  rw [hplace, parseTokens_relocate, mapError_eq_error] at hmoved
  obtain ⟨e', hparse, he'⟩ := hmoved
  cases e' with
  | unexpected e b =>
    cases he'
    obtain ⟨used, rest, hsplit, -⟩ := rejected_of_parseTokens hparse
    have hb : (enumerated tokens)[used.length]? = some b := by simp [hsplit]
    refine ⟨used.length, b.relocate place', ?_, ?_, ?_⟩
    · rw [hplace, List.getElem?_map, hb]
      rfl
    · rw [hplace', List.getElem?_map, hb]
      rfl
    · rw [hplace', parseTokens_relocate, hparse]
      rfl
  | unreadableNumeral | unterminated | pastEnd | outOfFuel => cases he'

end

end Grammar

end TapeCompiler
