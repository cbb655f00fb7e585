import TapeCompiler.Text.Quoted
/-!
# Numerals

Two readings of numbers share one limit: a numeral of more than 4300 digits is refused, leading
zeros included. `readDigits` reads a run of ASCII digits. `readInteger` reads an integer as people
write it: blanks around it, a sign, single underscores between digits, digits of any script.
-/
namespace TapeCompiler.Text

/-- Most digits that a numeral may have. -/
def digitLimit : Nat := 4300

/-- Why a text is not read as a number. -/
inductive NumeralError where
  /-- More digits than the limit allows. -/
  | tooLong (digits : Nat)
  /-- The text is not a numeral. -/
  | malformed (text : String)
  deriving DecidableEq, Repr

namespace NumeralError

def message : NumeralError → String
  | tooLong digits =>
    "Exceeds the limit (" ++ toString digitLimit
      ++ " digits) for integer string conversion: value has " ++ toString digits
      ++ " digits; use sys.set_int_max_str_digits() to increase the limit"
  | malformed text =>
    "invalid literal for int() with base 10: "
      ++ String.ofList ((quotedChars text.toList).take 200)

end NumeralError

/-- The value of a run of ASCII digits within the limit. -/
def readDigits (digits : List Char) : Except NumeralError Nat :=
  if digits.length ≤ digitLimit then .ok (digitsValue digits) else .error (.tooLong digits.length)

/-- A blank that may stand around an integer: the ASCII ones, information separators apart. -/
def isAsciiBlank (c : Char) : Bool :=
  c == ' ' || (decide (0x09 ≤ c.toNat) && decide (c.toNat ≤ 0x0D))

/-- A character beyond ASCII counts as the blank or the digit that it is; any other one becomes a
character that no numeral holds. -/
def asciiForm (c : Char) : Char :=
  if c.toNat < 0x7F then c
  else if isBlank c then ' '
  else match decimalDigit? c with
    | some d => Nat.digitChar d
    | none => '?'

/-- The text in ASCII. A text that is ASCII throughout stays as it is. -/
def asciiText (text : List Char) : List Char :=
  if text.all fun c => decide (c.toNat < 0x80) then text else text.map asciiForm

/-- Reads an integer without its sign, in ASCII: groups of digits with one underscore between two
of them, then blanks. The limit is checked before what follows the digits. -/
def readMagnitude (whole : String) (text : List Char) : Except NumeralError Nat :=
  let body := text.takeWhile fun c => c.isDigit || c == '_'
  let after := text.dropWhile fun c => c.isDigit || c == '_'
  let groups := body.splitOn '_'
  if groups.any List.isEmpty then .error (.malformed whole)
  else if groups.flatten.length > digitLimit then .error (.tooLong groups.flatten.length)
  else if !after.all isAsciiBlank then .error (.malformed whole)
  else .ok (digitsValue groups.flatten)

/-- The integer that a text is, read leniently. -/
def readInteger (text : String) : Except NumeralError Int :=
  match (asciiText text.toList).dropWhile isAsciiBlank with
  | '-' :: rest => (readMagnitude text rest).map fun n => -(n : Int)
  | '+' :: rest => (readMagnitude text rest).map fun n => (n : Int)
  | rest => (readMagnitude text rest).map fun n => (n : Int)

end TapeCompiler.Text
