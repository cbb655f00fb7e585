import Mathlib.Data.List.Nodup
import TapeCompiler.Diagnostic.Basic
import TapeCompiler.Proofs.Text.Characters
import TapeCompiler.Proofs.Text.Lines
/-!
# What an excerpt shows

The excerpt of a diagnostic shows the line that it is about and the two lines before and behind it,
as far as there are any. Each row is one line of the text with its number, and the row of the line in
question is the only one with a mark (`shows_inText`).
-/
namespace TapeCompiler

open TapeCompiler.Text

/-- The numbers of the lines that are shown with one line of a text of `count` lines, in order. -/
def shownLines (count line : Nat) : List Nat :=
  List.range' (max 1 (line - 2)) (min count (line + 2) + 1 - max 1 (line - 2))

/-- A line of a text, counted from one. -/
def lineOf (source : String) (n : Nat) : String := (lines source).getD (n - 1) ""

/-- Whether a row begins with the mark. -/
def isMarked (row : String) : Bool := row.toList.head? == some '>'

/-- A number in decimal, behind as many blanks as make it four characters long. -/
def padded (n : Nat) : String :=
  String.ofList (List.replicate (4 - (toString n).length) ' ') ++ toString n

/-- An excerpt shows the lines around a line that the text has. -/
structure Shows (source : String) (line : Nat) (excerpt : String) : Prop where
  pos : 1 ≤ line
  le : line ≤ (lines source).length
  /-- The rows are the lines around it, each behind its number. -/
  rows : lines excerpt = (shownLines (lines source).length line).map fun n =>
    (if n = line then "> " else "  ") ++ padded n ++ " | " ++ lineOf source n
  /-- Its own row alone is marked. -/
  marked : (lines excerpt).filter isMarked = ["> " ++ padded line ++ " | " ++ lineOf source line]

/-! ## The lines around a line -/

section

variable {count line : Nat}

theorem focusLine_eq (hpos : 1 ≤ line) (hle : line ≤ count) : focusLine count line = line := by
  unfold focusLine
  omega

/-- The numbers between two others, of all numbers up to `count`. -/
theorem filter_range' {first last : Nat} (hfirst : 1 ≤ first) (hle : first ≤ last)
    (hlast : last ≤ count) :
    (List.range' 1 count).filter (fun n => decide (first ≤ n ∧ n ≤ last)) =
      List.range' first (last + 1 - first) := by
  have hsplit : List.range' 1 count = List.range' 1 (first - 1) ++
      (List.range' first (last + 1 - first) ++ List.range' (last + 1) (count - last)) := by
    have hshown : List.range' first (last + 1 - first) ++ List.range' (last + 1) (count - last) =
        List.range' first (last + 1 - first + (count - last)) := by
      rw [← List.range'_append_1, show first + (last + 1 - first) = last + 1 by omega]
    have hall := @List.range'_append_1 1 (first - 1) (last + 1 - first + (count - last))
    rw [show 1 + (first - 1) = first by omega] at hall
    rw [hshown, hall, show first - 1 + (last + 1 - first + (count - last)) = count by omega]
  have hbefore : (List.range' 1 (first - 1)).filter
      (fun n => decide (first ≤ n ∧ n ≤ last)) = [] := by
    rw [List.filter_eq_nil_iff]
    intro n hn
    rw [List.mem_range'_1] at hn
    simp only [decide_eq_true_eq]
    omega
  have hshown : (List.range' first (last + 1 - first)).filter
      (fun n => decide (first ≤ n ∧ n ≤ last)) = List.range' first (last + 1 - first) := by
    rw [List.filter_eq_self]
    intro n hn
    rw [List.mem_range'_1] at hn
    simp only [decide_eq_true_eq]
    omega
  have hbehind : (List.range' (last + 1) (count - last)).filter
      (fun n => decide (first ≤ n ∧ n ≤ last)) = [] := by
    rw [List.filter_eq_nil_iff]
    intro n hn
    rw [List.mem_range'_1] at hn
    simp only [decide_eq_true_eq]
    omega
  rw [hsplit, List.filter_append, List.filter_append, hbefore, hshown, hbehind, List.nil_append,
    List.append_nil]

theorem nodup_shownLines (count line : Nat) : (shownLines count line).Nodup := List.nodup_range'

theorem mem_shownLines (hpos : 1 ≤ line) (hle : line ≤ count) : line ∈ shownLines count line := by
  rw [shownLines, List.mem_range'_1]
  omega

theorem zipIdx_eq_map (texts : List String) :
    texts.zipIdx 1 = (List.range' 1 texts.length).map fun n => (texts.getD (n - 1) "", n) := by
  refine List.ext_getElem (by simp) fun i hi _ => ?_
  rw [List.length_zipIdx] at hi
  simp [hi]

theorem excerptRows_eq {texts : List String} (hpos : 1 ≤ line) (hle : line ≤ texts.length) :
    excerptRows Diagnostic.reach texts line =
      (shownLines texts.length line).map fun n => (n, texts.getD (n - 1) "") := by
  have hrows : excerptRows Diagnostic.reach texts line =
      ((List.range' 1 texts.length).filter fun n =>
        decide (max 1 (line - 2) ≤ n ∧ n ≤ min texts.length (line + 2))).map
          fun n => (n, texts.getD (n - 1) "") := by
    rw [excerptRows, focusLine_eq hpos hle, zipIdx_eq_map, List.filterMap_map,
      ← List.filterMap_eq_map, List.filterMap_filter]
    refine List.filterMap_congr fun n hn => ?_
    rw [List.mem_range'_1] at hn
    simp only [Function.comp_apply, decide_eq_true_eq]
    refine if_congr ?_ rfl rfl
    show (line : Int) - 2 ≤ n ∧ (n : Int) ≤ line + 2 ↔ _
    omega
  rw [hrows, filter_range' (Nat.le_max_left ..) (by omega) (Nat.min_le_left ..), shownLines]

end

/-! ## Rows -/

section

variable {line n : Nat} {text : String}

theorem excerptRow_eq (line n : Nat) (text : String) : excerptRow line (n, text) =
    (if n = line then "> " else "  ") ++ padded n ++ " | " ++ text := by
  have hpadded : String.ofList ((Nat.toDigits 10 n).leftpad 4 ' ') = padded n := by
    have hdigits : toString n = String.ofList (Nat.toDigits 10 n) := rfl
    rw [padded, hdigits, String.length_ofList, List.leftpad, String.ofList_append]
  rw [excerptRow, hpadded]
  by_cases h : n = line
  · simp only [if_pos h]
    rfl
  · simp only [if_neg h]
    rfl

theorem not_lineFeed_mem_padded (n : Nat) : '\n' ∉ (padded n).toList := by
  rw [padded, String.toList_append, List.mem_append, not_or, String.toList_ofList]
  refine ⟨fun hmem => ?_, not_lineFeed_mem_toString n⟩
  cases List.eq_of_mem_replicate hmem

theorem not_lineFeed_mem_excerptRow (h : '\n' ∉ text.toList) :
    '\n' ∉ (excerptRow line (n, text)).toList := by
  have hmark : '\n' ∉ (if n = line then "> " else "  ").toList := by
    split <;> decide
  simp only [excerptRow_eq, String.toList_append, List.mem_append, not_or]
  exact ⟨⟨⟨hmark, not_lineFeed_mem_padded n⟩, by decide⟩, h⟩

theorem isMarked_row : isMarked ((if n = line then "> " else "  ") ++ padded n ++ " | " ++ text) =
    decide (n = line) := by
  by_cases h : n = line <;> simp [isMarked, h]

theorem not_lineFeed_mem_lineOf (source : String) (n : Nat) :
    '\n' ∉ (lineOf source n).toList := by
  rw [lineOf, List.getD_eq_getElem?_getD]
  cases hline : (lines source)[n - 1]? with
  | none => decide
  | some text => exact not_lineFeed_mem_of_mem_lines (List.mem_of_getElem? hline)

end

/-- The diagnostic of a fault on a line of a text shows this line. -/
theorem shows_inText {source : String} {line : Nat} (hpos : 1 ≤ line)
    (hle : line ≤ (lines source).length) (category : Category) (text : String)
    (column : Option Int) :
    Shows source line (Diagnostic.inText category text (some source) line column).excerpt := by
  have hmem := mem_shownLines hpos hle
  have hrows : lines (excerpt Diagnostic.reach (lines source) line) =
      (shownLines (lines source).length line).map fun n =>
        excerptRow line (n, lineOf source n) := by
    rw [excerpt, focusLine_eq hpos hle, excerptRows_eq hpos hle, List.map_map]
    refine lines_intercalate ?_ ?_
    · rw [Ne, List.map_eq_nil_iff]
      exact List.ne_nil_of_mem hmem
    · rw [List.forall_mem_map]
      exact fun n _ => not_lineFeed_mem_excerptRow (not_lineFeed_mem_lineOf source n)
  simp only [excerptRow_eq] at hrows
  refine ⟨hpos, hle, hrows, ?_⟩
  have hown : (shownLines (lines source).length line).filter (fun n => decide (n = line)) =
      [line] := by
    rw [List.filter_eq, List.count_eq_one_of_mem (nodup_shownLines _ _) hmem]
    rfl
  show (lines (excerpt Diagnostic.reach (lines source) line)).filter isMarked = _
  rw [hrows, List.filter_map]
  simp only [Function.comp_def, isMarked_row]
  rw [hown, List.map_singleton, if_pos rfl]

end TapeCompiler
