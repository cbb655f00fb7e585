import TapeCompiler.Proofs.Source.Settled
import TapeCompiler.Proofs.Source.Tokenizing
/-!
# The space between tokens

Behind a gap no token goes on. So the words of a text are scanned into the same tokens whatever gaps
there are between them, as long as there are some (`tokens_of_spaced`).
-/
namespace TapeCompiler

open TapeCompiler.Text

/-- A gap that is not empty comes first in the text. -/
def BeginsWithGap (text : List Char) : Prop :=
  ∃ gap rest, gap ≠ [] ∧ text = gap ++ rest ∧ Gap gap rest

/-- The words in order, with gaps around them; those between two words are not empty. -/
inductive Spaced : List String → List Char → Prop
  | nil {gap : List Char} : Gap gap [] → Spaced [] gap
  | cons {gap rest : List Char} {word : String} {words : List String} :
      Gap gap (word.toList ++ rest) → (words ≠ [] → BeginsWithGap rest) → Spaced words rest →
      Spaced (word :: words) (gap ++ word.toList ++ rest)

theorem BeginsWithGap.parts {text : List Char} (h : BeginsWithGap text) (c : Char)
    (hc : text.head? = some c) : Parts c := by
  obtain ⟨gap, rest, hne, rfl, hgap⟩ := h
  cases hgap with
  | nil => exact absurd rfl hne
  | blank hblank =>
    cases hc
    exact parts_of_isBlank hblank
  | comment =>
    cases hc
    exact parts_slash

theorem Spaced.parts {words : List String} {rest : List Char} (h : Spaced words rest)
    (hgap : words ≠ [] → BeginsWithGap rest) (c : Char) (hc : rest.head? = some c) : Parts c := by
  cases h with
  | cons => exact (hgap (List.cons_ne_nil _ _)).parts c hc
  | nil hend =>
    have hne : rest ≠ [] := by
      rintro rfl
      cases hc
    exact BeginsWithGap.parts ⟨rest, [], hne, (List.append_nil rest).symm, hend⟩ c hc

namespace Scan

section

variable {before ahead rest : List Char} {tokens : List Token}

/-- Words that have been passed as tokens are the same tokens with other gaps between them. -/
theorem exists_splits_of_spaced (h : Passed before ahead rest tokens) {text : List Char}
    (htext : Spaced (tokens.map Token.text) text) (behind : List Char) :
    ∃ others, Splits behind text others ∧
      others.map Token.content = tokens.map Token.content := by
  induction h generalizing text behind with
  | nil =>
    cases htext with
    | nil hgap => exact ⟨[], .done hgap, rfl⟩
  | gap _ _ ih => exact ih htext behind
  | @token before word ahead rest kind tokens hlongest _ _ ih =>
    cases htext with
    | @cons gap more _ _ hgap hnext hmore =>
      rw [String.toList_ofList] at hgap ⊢
      obtain ⟨others, hsplits, hcontent⟩ := ih hmore (behind ++ gap ++ word)
      refine ⟨_, .token hgap (longest_of_parts hlongest.fits (hmore.parts hnext)) hsplits, ?_⟩
      rw [List.map_cons, hcontent]
      rfl

end

/-- Other gaps between its words leave the tokens of a text as they are, up to their places. -/
theorem tokens_of_spaced {source text : String} {tokens : List Token}
    (h : Scan.tokens source = .ok tokens)
    (htext : Spaced (tokens.dropLast.map Token.text) text.toList) :
    ∃ others, Scan.tokens text = .ok others ∧
      others.map Token.content = tokens.map Token.content := by
  have houtcome := outcome_tokens source
  rw [h] at houtcome
  cases houtcome with
  | @tokens ahead rest tokens _ hpassed _ =>
    rw [List.dropLast_concat] at htext
    obtain ⟨others, hsplits, hcontent⟩ := exists_splits_of_spaced hpassed htext []
    have hshort : ∀ u ∈ others, u.kind = .number → u.text.length ≤ digitLimit := by
      intro u hu hkind
      have hmem : u.content ∈ tokens.map Token.content := hcontent ▸ List.mem_map_of_mem hu
      obtain ⟨t, ht, hsame⟩ := List.mem_map.1 hmem
      obtain ⟨hkind', htext'⟩ := Grammar.content_eq.1 hsame
      obtain ⟨-, word, -, -, -, hlength, hword, -⟩ := place_of_mem_passed hpassed ht
      rw [← htext', hword, String.length_ofList]
      exact hlength (hkind'.trans hkind)
    obtain ⟨p, hscan⟩ := scanFrom_of_splits hsplits hshort
    refine ⟨_, hscan, ?_⟩
    rw [List.map_append, List.map_append, hcontent]
    rfl

end Scan

end TapeCompiler
