/-!
# Excerpts

An excerpt shows the numbered lines around one line of a text, and marks that line. A line number
outside the text stands for the nearest line.
-/
namespace TapeCompiler

/-- The existing line nearest to line `line` of a text of `count` lines, counted from one. -/
def focusLine (count : Nat) (line : Int) : Nat := min (max 1 line).toNat count

/-- The numbered lines at most `reach` away from the line in focus. -/
def excerptRows (reach : Int) (lines : List String) (line : Int) : List (Nat × String) :=
  let focus : Int := focusLine lines.length line
  (lines.zipIdx 1).filterMap fun (text, n) =>
    if focus - reach ≤ n ∧ n ≤ focus + reach then some (n, text) else none

/-- The text of one row. -/
def excerptRow (focus : Nat) (row : Nat × String) : String :=
  (if row.1 = focus then ">" else " ") ++ " "
    ++ String.ofList ((Nat.toDigits 10 row.1).leftpad 4 ' ') ++ " | " ++ row.2

/-- The rows around a line, one to a line of text (`_build_context`). -/
def excerpt (reach : Int) (lines : List String) (line : Int) : String :=
  "\n".intercalate ((excerptRows reach lines line).map (excerptRow (focusLine lines.length line)))

end TapeCompiler
