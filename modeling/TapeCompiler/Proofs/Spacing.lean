import TapeCompiler.Proofs.Source.FirstMisfit
import TapeCompiler.Proofs.Source.Places
import TapeCompiler.Proofs.Source.Relocated
import TapeCompiler.Proofs.Source.Spaced
/-!
# Spacing does not matter

How much space there is between the words of a source, and what it consists of, shows only in the
places that errors name: the tokens are the same up to their places, and the places of tokens make
no difference to the program or to what is compiled from it (`compile_spacing`).
-/
namespace TapeCompiler

/-- Two sources with these tokens are the same program, or not one because of the same token, and
they are compiled to the same result. -/
structure CompiledAlike (source other : String) (tokens others : List Token) : Prop where
  program : ∀ program, parse source = .ok program ↔ parse other = .ok program
  misfit : ∀ failure, parse source = .error failure → ∃ e t u,
    failure = .parse source (.unexpected e t) ∧
    parse other = .error (.parse other (.unexpected e u)) ∧
    t ∈ tokens ∧ u ∈ others ∧ tokens.idxOf t = others.idxOf u
  result : ∀ annotate compiled, compile ⟨annotate, false⟩ source = .ok compiled ↔
    compile ⟨annotate, false⟩ other = .ok compiled

section

variable {source other : String} {tokens others : List Token}

/-- A token of a text has one number. -/
theorem idxOf_of_getElem? (h : Scan.tokens source = .ok tokens) {i : Nat} {t : Token}
    (ht : tokens[i]? = some t) : tokens.idxOf t = i := by
  obtain ⟨hi, rfl⟩ := List.getElem?_eq_some_iff.1 ht
  exact (List.Nodup.of_map _ (Scan.nodup_positions_of_tokens h)).idxOf_getElem i hi

theorem parse_congr (h : Scan.tokens source = .ok tokens) (h' : Scan.tokens other = .ok others)
    (hcontent : others.map Token.content = tokens.map Token.content) {program : Block}
    (hparse : parse source = .ok program) : parse other = .ok program := by
  rw [parse_of_tokens h, mapError_eq_ok] at hparse
  rw [parse_of_tokens h', mapError_eq_ok]
  exact Grammar.parseTokens_congr hcontent hparse

theorem misfit_congr (h : Scan.tokens source = .ok tokens) (h' : Scan.tokens other = .ok others)
    (hcontent : others.map Token.content = tokens.map Token.content) {failure : Failure}
    (hparse : parse source = .error failure) : ∃ e t u,
      failure = .parse source (.unexpected e t) ∧
      parse other = .error (.parse other (.unexpected e u)) ∧
      t ∈ tokens ∧ u ∈ others ∧ tokens.idxOf t = others.idxOf u := by
  rw [parse_of_tokens h, mapError_eq_error] at hparse
  obtain ⟨error, herror, rfl⟩ := hparse
  obtain ⟨e, t, rfl⟩ := (Scan.proper_of_tokens h).unexpected herror
  obtain ⟨i, u, ht, hu, herror'⟩ := Grammar.unexpected_congr hcontent herror
  refine ⟨e, t, u, rfl, ?_, List.mem_of_getElem? ht, List.mem_of_getElem? hu, ?_⟩
  · rw [parse_of_tokens h', herror']
    rfl
  · rw [idxOf_of_getElem? h ht, idxOf_of_getElem? h' hu]

/-- What is compiled from a source is compiled from any other that is the same program. -/
theorem compile_congr (h : ∀ program, parse source = .ok program → parse other = .ok program)
    {annotate : Bool} {compiled : Compiled}
    (hcompile : compile ⟨annotate, false⟩ source = .ok compiled) :
    compile ⟨annotate, false⟩ other = .ok compiled := by
  have hstages (text : String) : compile ⟨annotate, false⟩ text =
      parse text >>= fun program => generateCode annotate program >>= fun listing =>
        assembleText listing.text >>= fun code =>
          .ok ⟨code, listing.text, listing.layout⟩ := rfl
  rw [hstages] at hcompile ⊢
  obtain ⟨program, hparse, hcode⟩ := bind_eq_ok.1 hcompile
  exact bind_eq_ok.2 ⟨program, h program hparse, hcode⟩

end

/-- **Spacing does not matter.** The words of a source may have any other gaps between them: the
text is tokenized into the same kinds and texts. And of two sources with the same kinds and texts
either both are the same program or neither is one, for the same of its tokens; and they are compiled
to the same code, listing and layout. -/
theorem compile_spacing {source : String} {tokens : List Token}
    (h : tokenize source = .ok tokens) :
    (∀ text : String, Spaced (tokens.dropLast.map Token.text) text.toList →
      ∃ others, tokenize text = .ok others ∧
        others.map Token.content = tokens.map Token.content) ∧
    (∀ other others, tokenize other = .ok others →
      others.map Token.content = tokens.map Token.content →
        CompiledAlike source other tokens others) := by
  have hsource := mapError_eq_ok.1 h
  constructor
  · intro text htext
    obtain ⟨others, hothers, hcontent⟩ := Scan.tokens_of_spaced hsource htext
    exact ⟨others, mapError_eq_ok.2 hothers, hcontent⟩
  · intro other others hother hcontent
    have hother := mapError_eq_ok.1 hother
    have hprogram (program : Block) : parse source = .ok program ↔ parse other = .ok program :=
      ⟨parse_congr hsource hother hcontent, parse_congr hother hsource hcontent.symm⟩
    refine ⟨hprogram, fun _ => misfit_congr hsource hother hcontent, fun annotate compiled => ?_⟩
    exact ⟨compile_congr fun program => (hprogram program).1,
      compile_congr fun program => (hprogram program).2⟩

/-- Blanks, and comments of which one looks like a sign and a number. -/
theorem compile_spacing_comment :
    ∃ tokens others, tokenize "x=3" = .ok tokens ∧
      Spaced (tokens.dropLast.map Token.text) " x//=4\r\n=\t3//".toList ∧
      tokenize " x//=4\r\n=\t3//" = .ok others ∧
      CompiledAlike "x=3" " x//=4\r\n=\t3//" tokens others := by
  have htokens : tokenize "x=3" = .ok [⟨.name, "x", ⟨1, 1⟩⟩, ⟨.assign, "=", ⟨1, 2⟩⟩,
      ⟨.number, "3", ⟨1, 3⟩⟩, ⟨.endOfInput, "", ⟨1, 4⟩⟩] := rfl
  have hend : Gap (['/', '/'] ++ []) [] := .comment List.not_mem_nil (by simp) .nil
  have hcomment (rest : List Char) : Gap ('/' :: '/' :: ['=', '4', '\r'] ++ ['\n']) rest :=
    .comment (by decide) (by simp) (.blank (by decide) .nil)
  have hnumber : Spaced ["3"] (['\t'] ++ "3".toList ++ ['/', '/']) :=
    .cons (.blank (by decide) .nil) (fun h => absurd rfl h) (.nil hend)
  have hsign : Spaced ["=", "3"] ('/' :: '/' :: ['=', '4', '\r'] ++ ['\n'] ++ "=".toList ++
      (['\t'] ++ "3".toList ++ ['/', '/'])) :=
    .cons (hcomment _)
      (fun _ => ⟨['\t'], ['3', '/', '/'], by simp, rfl, .blank (by decide) .nil⟩) hnumber
  have htext : Spaced ["x", "=", "3"] " x//=4\r\n=\t3//".toList :=
    have hwords : Spaced ["x", "=", "3"] ([' '] ++ "x".toList ++ _) :=
      .cons (.blank (by decide) .nil)
        (fun _ => ⟨_, _, by simp, rfl, hcomment ['=', '\t', '3', '/', '/']⟩) hsign
    hwords
  obtain ⟨others, hothers, hcontent⟩ := (compile_spacing htokens).1 " x//=4\r\n=\t3//" htext
  exact ⟨_, others, htokens, htext, hothers, (compile_spacing htokens).2 _ _ hothers hcontent⟩

end TapeCompiler
