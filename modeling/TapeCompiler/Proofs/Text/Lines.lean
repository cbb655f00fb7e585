import TapeCompiler.Text.Character
/-!
# Lines and words

The lines of a text are its pieces between line feeds. There is one more of them than line feeds, the
first one goes up to the first line feed, and none of them holds one, as no word holds a blank
(`forall_mem_splitOnP`). Lines that are put together with line feeds between them are found again
(`lines_intercalate`).
-/
namespace TapeCompiler.Text

/-- The lines of a text that begins with `c`. -/
theorem splitOn_lineFeed_cons (c : Char) (rest : List Char) :
    (c :: rest).splitOn '\n' = if c = '\n' then [] :: rest.splitOn '\n'
      else (rest.splitOn '\n').modifyHead (c :: ·) := by
  rw [List.splitOn_cons_eq_if_modifyHead]
  simp only [beq_iff_eq]

theorem length_splitOn_lineFeed (text : List Char) :
    (text.splitOn '\n').length = text.count '\n' + 1 := by
  induction text with
  | nil => rfl
  | cons c rest ih =>
    rw [splitOn_lineFeed_cons]
    by_cases hc : c = '\n'
    · rw [if_pos hc, List.length_cons, ih, hc, List.count_cons_self]
    · rw [if_neg hc, List.length_modifyHead, ih, List.count_cons_of_ne hc]

theorem head?_splitOn_lineFeed (text : List Char) :
    (text.splitOn '\n').head? = some (text.takeWhile (· != '\n')) := by
  induction text with
  | nil => rfl
  | cons c rest ih =>
    rw [splitOn_lineFeed_cons]
    by_cases hc : c = '\n'
    · simp [hc]
    · simp [hc, List.head?_modifyHead, ih]

/-- Two pieces had the one character between them. -/
theorem eq_append_of_splitOn {c : Char} {text first second : List Char}
    (h : text.splitOn c = [first, second]) : text = first ++ c :: second := by
  have htext : [c].intercalate (text.splitOn c) = text := List.intercalate_splitOn c
  rw [h] at htext
  simpa using htext.symm

/-- No piece of a text holds a character that it was cut at. -/
theorem forall_mem_splitOnP (p : Char → Bool) (text : List Char) :
    ∀ piece ∈ text.splitOnP p, ∀ c ∈ piece, p c = false := by
  induction text with
  | nil => exact List.forall_mem_singleton.2 fun _ hmem => absurd hmem List.not_mem_nil
  | cons c rest ih =>
    rw [List.splitOnP_cons_eq_if_modifyHead]
    cases hc : p c with
    | true => exact List.forall_mem_cons.2 ⟨fun _ hmem => absurd hmem List.not_mem_nil, ih⟩
    | false =>
      obtain ⟨first, others, heq⟩ := List.exists_cons_of_ne_nil (List.splitOnP_ne_nil p rest)
      rw [heq, List.forall_mem_cons] at ih
      rw [if_neg (by simp), heq, List.modifyHead_cons]
      exact List.forall_mem_cons.2 ⟨List.forall_mem_cons.2 ⟨hc, ih.1⟩, ih.2⟩

theorem not_lineFeed_mem_splitOn (text : List Char) : ∀ line ∈ text.splitOn '\n', '\n' ∉ line := by
  intro line hline hmem
  rw [List.splitOn_eq_splitOnP] at hline
  have hne := forall_mem_splitOnP (· == '\n') text line hline '\n' hmem
  simp at hne

/-- Words are not empty and have no blanks in them. -/
theorem word_spec {text word : List Char} (h : word ∈ words text) :
    word ≠ [] ∧ ∀ c ∈ word, isBlank c = false := by
  obtain ⟨hmem, hne⟩ := List.mem_filter.1 h
  exact ⟨by simpa using hne, forall_mem_splitOnP isBlank text word hmem⟩

theorem not_lineFeed_mem_of_mem_lines {text line : String} (h : line ∈ lines text) :
    '\n' ∉ line.toList := by
  obtain ⟨chars, hchars, rfl⟩ := List.mem_map.1 h
  rw [String.toList_ofList]
  exact not_lineFeed_mem_splitOn _ chars hchars

/-- The lines of two texts with a line feed between them. -/
theorem lines_append (a b : String) : lines (a ++ "\n" ++ b) = lines a ++ lines b := by
  have hlines : (a ++ "\n" ++ b).toList = a.toList ++ '\n' :: b.toList := by simp
  rw [lines, hlines, List.splitOn, List.splitOnP_append_cons _ _ (by decide), List.map_append]
  rfl

theorem lines_eq_singleton {text : String} (h : '\n' ∉ text.toList) : lines text = [text] := by
  rw [lines, List.splitOn_eq_singleton h, List.map_singleton, String.ofList_toList]

theorem lines_intercalate {rows : List String} (hne : rows ≠ [])
    (h : ∀ row ∈ rows, '\n' ∉ row.toList) : lines ("\n".intercalate rows) = rows := by
  have hsplit : (['\n'].intercalate (rows.map String.toList)).splitOn '\n' =
      rows.map String.toList :=
    List.splitOn_intercalate '\n' (List.forall_mem_map.2 h) (by simpa using hne)
  have htext : ("\n".intercalate rows).toList = ['\n'].intercalate (rows.map String.toList) :=
    String.toList_intercalate
  rw [lines, htext, hsplit, List.map_map]
  simp

/-- Every text is its lines with line feeds between them. -/
theorem intercalate_lines (text : String) : "\n".intercalate (lines text) = text := by
  have hchars : ("\n".intercalate (lines text)).toList = text.toList := by
    rw [String.toList_intercalate, lines, List.map_map]
    have hid : String.toList ∘ String.ofList = id := funext fun _ => String.toList_ofList
    rw [hid, List.map_id]
    exact List.intercalate_splitOn '\n'
  exact String.toList_inj.1 hchars

end TapeCompiler.Text
