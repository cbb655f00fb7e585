import TapeCompiler.Compile
import TapeCompiler.Proofs.Asm.FaultLines
import TapeCompiler.Proofs.Diagnostic.Excerpt
import TapeCompiler.Proofs.Source.Inside
import TapeCompiler.Proofs.Source.Places
/-!
# Where errors are

Lines and columns are counted while a text is scanned or read, and the excerpt is cut from the text
later. They agree: the line of a diagnostic is a line of the text, the excerpt shows it, and what the
error is about stands there (`diagnostic_located`).
-/
namespace TapeCompiler

open TapeCompiler.Text

/-- The words that a failure to parse is about, and their place. -/
def Failure.culprit? : Failure → Option (Position × String)
  | .scan _ e => some (e.position, e.fault.culprit)
  | .parse _ (.unexpected _ t) => some (t.position, t.text)
  | _ => none

/-- The failure is found at the end of the input. -/
def Failure.AtEnd (failure : Failure) : Prop :=
  ∃ source e t, failure = .parse source (.unexpected e t) ∧ t.kind = .endOfInput

/-- The line of a diagnostic shows in its excerpt, and its culprit stands there. -/
structure Located (source : String) (failure : Failure) (d : Diagnostic) : Prop where
  shows : ∃ line : Nat, d.line = line ∧ Shows source line d.excerpt
  stands : ∃ p word, failure.culprit? = some (p, word) ∧ d.line = p.line ∧
    d.column = some p.column ∧ StandsAt source p word ∧ (word = "" → failure.AtEnd)

section

variable {source : String} {failure : Failure} {d : Diagnostic}

/-- A diagnostic with a place in the text shows the line of this place. -/
theorem Located.of_standsAt {p : Position} {word text : String} {category : Category}
    (hculprit : failure.culprit? = some (p, word)) (hstands : StandsAt source p word)
    (hend : word = "" → failure.AtEnd) :
    Located source failure (.inText category text (some source) p.line (some p.column)) := by
  refine ⟨?_, p, word, hculprit, rfl, rfl, hstands, hend⟩
  obtain ⟨line, column, rfl, hline, -, _, htext, -⟩ := hstands
  have hlt := (List.getElem?_eq_some_iff.1 htext).1
  exact ⟨line, rfl, shows_inText hline (by omega) _ _ _⟩

theorem located_of_scan {e : Scan.Error} (h : Scan.tokens source = .error e)
    (hd : e.diagnostic? source = some d) : Located source (.scan source e) d := by
  rw [Scan.Error.diagnostic?] at hd
  split at hd
  · next hreported =>
    cases hd
    obtain ⟨hstands, hword⟩ := Scan.standsAt_of_tokens_error h hreported
    exact .of_standsAt rfl hstands fun hempty => absurd hempty hword
  · cases hd

theorem located_of_parse {tokens : List Token} {e : Grammar.Error}
    (htokens : Scan.tokens source = .ok tokens) (h : Grammar.parseTokens tokens = .error e)
    (hd : e.diagnostic? source = some d) : Located source (.parse source e) d := by
  cases e with
  | unexpected x t =>
    have ht : t ∈ tokens := Grammar.blames_of_parseTokens (Scan.getLast?_tokens htokens) h
    obtain ⟨hstands, hend⟩ := Scan.standsAt_of_mem_tokens htokens ht
    cases hd
    exact .of_standsAt rfl hstands fun hempty => ⟨source, x, t, rfl, hend hempty⟩
  | unreadableNumeral | unterminated | pastEnd | outOfFuel => cases hd

/-- **Errors are where they say.** A diagnostic of a text shows the lines around its own one, which
is a line of the text and alone is marked. In a program the words that it is about stand on that line
from its column on, unless it is about the end of the input, which has no words. In a text of
instructions it is the line of the instruction at fault. -/
theorem diagnostic_located (hd : failure.diagnostic? = some d) :
    (parse source = .error failure → Located source failure d) ∧
    (assembleText source = .error failure → ∃ (line : Nat) (fault : Asm.Fault),
      failure = .assemble (some source) ⟨line, fault⟩ ∧ d.line = line ∧
        Shows source line d.excerpt ∧ Asm.TextHasFault fault (lineOf source line)) := by
  constructor
  · intro h
    rcases bind_eq_error.1 h with h | ⟨tokens, htokens, h⟩
    · obtain ⟨e, he, rfl⟩ := mapError_eq_error.1 h
      exact located_of_scan he hd
    · obtain ⟨e, he, rfl⟩ := mapError_eq_error.1 h
      exact located_of_parse (mapError_eq_ok.1 htokens) he hd
  · intro h
    obtain ⟨e, he, rfl⟩ := mapError_eq_error.1 h
    obtain ⟨line, text, hline, ⟨hpos, htext⟩, hfault⟩ := Asm.concerns_of_assemble he
    obtain ⟨eline, fault⟩ := e
    obtain rfl : eline = line := hline
    obtain ⟨category, -, rfl⟩ := Option.map_eq_some_iff.1 hd
    have hlt := (List.getElem?_eq_some_iff.1 htext).1
    refine ⟨line, fault, rfl, rfl, shows_inText hpos (by omega) _ _ _, ?_⟩
    rw [lineOf, List.getD_eq_getElem?_getD, htext]
    exact hfault

end

/-- A program and a text of instructions, each with something wrong on its second line. -/
theorem diagnostic_located_sign :
    ∃ failure d other d', parse "input(x)\nx == 3" = .error failure ∧
      failure.diagnostic? = some d ∧ Located "input(x)\nx == 3" failure d ∧
      d.line = 2 ∧ d.column = some 3 ∧ failure.culprit? = some (⟨2, 3⟩, "==") ∧
      d.excerpt = "     1 | input(x)\n>    2 | x == 3" ∧
      assembleText "set 0 1\nadd 0 n" = .error other ∧ other.diagnostic? = some d' ∧
      d'.line = 2 ∧ Shows "set 0 1\nadd 0 n" 2 d'.excerpt := by
  have htokens : Scan.tokens "input(x)\nx == 3" = .ok
      [⟨.name, "input", ⟨1, 1⟩⟩, ⟨.openParen, "(", ⟨1, 6⟩⟩, ⟨.name, "x", ⟨1, 7⟩⟩,
        ⟨.closeParen, ")", ⟨1, 8⟩⟩, ⟨.name, "x", ⟨2, 1⟩⟩, ⟨.equal, "==", ⟨2, 3⟩⟩,
        ⟨.number, "3", ⟨2, 6⟩⟩, ⟨.endOfInput, "", ⟨2, 7⟩⟩] := rfl
  have hparse : parse "input(x)\nx == 3" = .error (.parse "input(x)\nx == 3"
      (.unexpected (.assignAfter "x") ⟨.equal, "==", ⟨2, 3⟩⟩)) := by
    rw [parse, tokenize, htokens]
    rfl
  have hassemble : assembleText "set 0 1\nadd 0 n" = .error (.assemble (some "set 0 1\nadd 0 n")
      ⟨2, .unresolvedOperand "n" (.add (.number 0) (.name "n"))⟩) := rfl
  obtain ⟨line, fault, hfailure, -, hshows, -⟩ := (diagnostic_located rfl).2 hassemble
  cases hfailure
  exact ⟨_, _, _, _, hparse, rfl, (diagnostic_located rfl).1 hparse, rfl, rfl, rfl,
    rfl, hassemble, rfl, rfl, hshows⟩

end TapeCompiler
