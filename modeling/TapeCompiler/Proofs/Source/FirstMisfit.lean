import TapeCompiler.Compile
import TapeCompiler.Proofs.Source.Derivation
import TapeCompiler.Proofs.Source.Inside
/-!
# The token in an error

An error names the first token that fits no program: the tokens before it begin a program, and
nothing that begins as they do with that token behind them is one (`firstMisfit_of_parseTokens`).
-/
namespace TapeCompiler

open TapeCompiler.Spelling

/-- Tokens that begin with `used` may be a program, and tokens that begin with `used` and `t` are
none, wherever they stand. -/
structure FirstMisfit (used : List Token) (t : Token) : Prop where
  viable : ∃ more last program, last.kind = .endOfInput ∧
    Grammar.parseTokens (used ++ more ++ [last]) = .ok program
  misfit : ∀ others, (used ++ [t]).map Token.content <+: others.map Token.content →
    ∀ program, Grammar.parseTokens others ≠ .ok program

theorem Grammar.firstMisfit_of_unexpected {tokens : List Token} {e : Expectation} {t : Token}
    (h : Grammar.parseTokens tokens = .error (.unexpected e t)) :
    ∃ used rest, tokens = used ++ t :: rest ∧ FirstMisfit used t := by
  obtain ⟨used, rest, htokens, ⟨more, program, hmem⟩, hrejected⟩ := rejected_of_parseTokens h
  refine ⟨used, rest, htokens, ?_, ?_⟩
  · have hlast : [⟨.endOfInput, "", .start⟩] ∈ ofKind .endOfInput := ⟨_, rfl, rfl⟩
    exact ⟨more, _, program, rfl, parseTokens_of_spelled (Language.append_mem_mul hmem hlast)⟩
  · rintro others ⟨behind, hbehind⟩
    rw [List.map_append, List.append_assoc] at hbehind
    obtain ⟨us, vs, rfl, hus, hvs⟩ := List.map_eq_append_iff.1 hbehind.symm
    obtain ⟨u, others, rfl, hu, -⟩ := List.map_eq_cons_iff.1 hvs
    exact hrejected us u others hus hu

/-- What is wrong with proper tokens is a token that was not expected. -/
theorem Grammar.Proper.unexpected {tokens : List Token} {e : Error} (hproper : Proper tokens)
    (h : Grammar.parseTokens tokens = .error e) : ∃ x t, e = .unexpected x t := by
  have hblames := blames_of_parseTokens hproper.ends h
  cases e with
  | unexpected x t => exact ⟨x, t, rfl⟩
  | unreadableNumeral numeral =>
    obtain ⟨t, ht, hkind, hread⟩ := hblames
    rw [hproper.readInteger ht hkind] at hread
    cases hread
  | unterminated | pastEnd | outOfFuel => exact hblames.elim

/-- **An error points at the first token that fits no program.** Proper tokens that are not parsed
are reported with a place. Where an error has a place, it is that of one of the tokens: those before
it begin a program, and nothing that begins as they do with that token behind them is one. -/
theorem firstMisfit_of_parseTokens {source : String} {tokens : List Token} {failure : Failure}
    (h : parseTokens source tokens = .error failure) :
    (Grammar.Proper tokens → ∃ d, failure.diagnostic? = some d) ∧
      ∀ d, failure.diagnostic? = some d →
        d.category = .parse ∧ ∃ used t rest, tokens = used ++ t :: rest ∧
          d.line = t.position.line ∧ d.column = some t.position.column ∧ FirstMisfit used t := by
  obtain ⟨error, herror, rfl⟩ := mapError_eq_error.1 h
  constructor
  · intro hproper
    obtain ⟨e, t, rfl⟩ := hproper.unexpected herror
    exact ⟨_, rfl⟩
  · intro d hd
    cases error with
    | unexpected e t =>
      obtain ⟨used, rest, htokens, hmisfit⟩ := Grammar.firstMisfit_of_unexpected herror
      cases hd
      exact ⟨rfl, used, t, rest, htokens, rfl, rfl, hmisfit⟩
    | unreadableNumeral | unterminated | pastEnd | outOfFuel => cases hd

theorem firstMisfit_of_parseTokens_else :
    ∃ tokens failure d,
      tokens.map Token.content =
        [(.name, "if"), (.name, "x"), (.equal, "=="), (.number, "0"), (.openBrace, "\x7b"),
          (.closeBrace, "\x7d"), (.name, "else"), (.name, "while"), (.endOfInput, "")] ∧
      parseTokens "" tokens = .error failure ∧ failure.diagnostic? = some d ∧
      d.text = "Expected '\x7b', found 'while'" ∧ d.column = some 20 ∧
      ∃ used t rest, tokens = used ++ t :: rest ∧ t.position.column = 20 ∧ FirstMisfit used t := by
  have hparse : parseTokens ""
      [⟨.name, "if", ⟨1, 1⟩⟩, ⟨.name, "x", ⟨1, 4⟩⟩, ⟨.equal, "==", ⟨1, 6⟩⟩,
        ⟨.number, "0", ⟨1, 9⟩⟩, ⟨.openBrace, "\x7b", ⟨1, 11⟩⟩, ⟨.closeBrace, "\x7d", ⟨1, 13⟩⟩,
        ⟨.name, "else", ⟨1, 15⟩⟩, ⟨.name, "while", ⟨1, 20⟩⟩, ⟨.endOfInput, "", ⟨1, 25⟩⟩] =
      .error (.parse "" (.unexpected .openBrace ⟨.name, "while", ⟨1, 20⟩⟩)) := rfl
  obtain ⟨hreported, hplace⟩ := firstMisfit_of_parseTokens hparse
  obtain ⟨d, hd⟩ := hreported ⟨rfl, by decide, by decide⟩
  obtain ⟨-, used, t, rest, htokens, -, hcolumn, hmisfit⟩ := hplace d hd
  cases hd
  exact ⟨_, _, _, rfl, hparse, rfl, by decide, rfl, used, t, rest, htokens,
    (Option.some.inj hcolumn).symm, hmisfit⟩

end TapeCompiler
