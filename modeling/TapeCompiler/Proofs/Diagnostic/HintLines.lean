import TapeCompiler.Proofs.Diagnostic.Excerpt
/-!
# Hints in messages

Messages quote lines of a text that may look like hints themselves. But the header begins with the
name of the category and the rows of an excerpt begin with a mark or a blank, so the lines of a
message that begin as a hint are just the hint of the diagnostic (`hintLines_message`).
-/
namespace TapeCompiler

open TapeCompiler.Text

/-- Whether a line begins as a hint does. -/
def isHintLine (line : String) : Bool := "Hint: ".toList.isPrefixOf line.toList

/-- The hints that a message shows. -/
def hintLines (message : String) : List String := (lines message).filter isHintLine

section

variable {d : Diagnostic} {source advice : String} {line : Nat}

theorem hintLines_append (a b : String) : hintLines (a ++ "\n" ++ b) = hintLines a ++ hintLines b := by
  rw [hintLines, lines_append, List.filter_append]
  rfl

theorem hintLines_hint (h : '\n' ∉ advice.toList) :
    hintLines ("Hint: " ++ advice) = ["Hint: " ++ advice] := by
  have hline : '\n' ∉ ("Hint: " ++ advice).toList := by
    rw [String.toList_append, List.mem_append, not_or]
    exact ⟨by decide, h⟩
  have hhint : isHintLine ("Hint: " ++ advice) = true := by
    rw [isHintLine, String.toList_append, List.isPrefixOf_iff_prefix]
    exact List.prefix_append _ _
  rw [hintLines, lines_eq_singleton hline, List.filter_cons_of_pos hhint, List.filter_nil]

theorem not_lineFeed_mem_hint (h : d.hint = some advice) : '\n' ∉ advice.toList := by
  have hall : ∀ topic : Topic, ∀ entry ∈ topic.advice, '\n' ∉ entry.2.toList := by
    intro topic
    cases topic <;> decide +kernel
  obtain ⟨entry, hentry, rfl⟩ := Option.map_eq_some_iff.1 h
  exact hall _ entry (List.mem_of_find?_eq_some hentry)

/-- The first line of a message. -/
def Diagnostic.header (d : Diagnostic) : String :=
  d.category.title ++ ": " ++ d.text ++ " " ++ d.place

theorem not_lineFeed_mem_header (htext : '\n' ∉ d.text.toList) : '\n' ∉ d.header.toList := by
  have htitle : '\n' ∉ d.category.title.toList := by cases d.category <;> decide
  have hplace : '\n' ∉ d.place.toList := by
    unfold Diagnostic.place
    split <;> simp only [String.toList_append, List.mem_append, not_or]
    · exact ⟨⟨⟨⟨by decide, not_lineFeed_mem_toString _⟩, by decide⟩, not_lineFeed_mem_toString _⟩,
        by decide⟩
    · exact ⟨⟨by decide, not_lineFeed_mem_toString _⟩, by decide⟩
  simp only [Diagnostic.header, String.toList_append, List.mem_append, not_or]
  exact ⟨⟨⟨⟨htitle, by decide⟩, htext⟩, by decide⟩, hplace⟩

theorem hintLines_header (htext : '\n' ∉ d.text.toList) : hintLines d.header = [] := by
  have hheader : isHintLine d.header = false := by
    simp only [isHintLine, Diagnostic.header, String.toList_append, List.append_assoc]
    cases d.category <;> rfl
  rw [hintLines, lines_eq_singleton (not_lineFeed_mem_header htext),
    List.filter_cons_of_neg (by simp [hheader]), List.filter_nil]

/-- The lines of a message that begin as a hint are the hint of its diagnostic. -/
theorem hintLines_message (htext : '\n' ∉ d.text.toList) (hexcerpt : hintLines d.excerpt = []) :
    hintLines d.message = d.hint.toList.map ("Hint: " ++ ·) := by
  have hbefore : hintLines (d.header ++ if d.excerpt.isEmpty then "" else "\n" ++ d.excerpt) = [] := by
    split
    · rw [String.append_empty, hintLines_header htext]
    · rw [← String.append_assoc, hintLines_append, hintLines_header htext, hexcerpt,
        List.append_nil]
  rw [Diagnostic.message, ← Diagnostic.header]
  cases hhint : d.hint with
  | none => rw [String.append_empty, hbefore]; rfl
  | some advice =>
    have hline : "\nHint: " ++ advice = "\n" ++ ("Hint: " ++ advice) := by
      rw [← String.append_assoc]
      rfl
    simp only [hline]
    rw [← String.append_assoc, hintLines_append, hbefore,
      hintLines_hint (not_lineFeed_mem_hint hhint)]
    rfl

theorem Shows.hintLines_eq_nil {excerpt : String} (h : Shows source line excerpt) :
    hintLines excerpt = [] := by
  rw [hintLines, h.rows, List.filter_eq_nil_iff, List.forall_mem_map]
  intro n _
  simp only [isHintLine, String.toList_append, List.append_assoc]
  by_cases hn : n = line
  · simp [hn]
  · simp [hn]

end

end TapeCompiler
