import TapeCompiler.Diagnostic.Basic
import TapeCompiler.Source.Token
import TapeCompiler.Text.Numeral
/-!
# From source text to tokens

Between tokens stand blanks and comments; a comment runs from two slashes to the end of its line.
At every other place the longest token is taken. The scan is one pass over the characters: after
the first character of a token the rest of it is passed over, counted down.
-/
namespace TapeCompiler.Scan

open TapeCompiler.Text

/-- Why no token begins at a place. -/
inductive Fault where
  | unexpectedCharacter (c : Char)
  /-- A run of digits that runs on into a name. -/
  | gluedNumeral (text : String)
  /-- A number that no cell can hold. -/
  | outOfRange (text : String)
  /-- A numeral that is in range only because of its leading zeros, and too long to be read. -/
  | unreadableNumeral (error : NumeralError)
  deriving DecidableEq, Repr

/-- The largest number that a source text may hold. -/
def maxLiteral : Nat := 255

def Fault.text : Fault → String
  | unexpectedCharacter c => "Unexpected character " ++ quote (String.singleton c)
  | gluedNumeral text => "Invalid token: " ++ quote text
  | outOfRange text => "Literal " ++ text ++ " out of range (0.." ++ toString maxLiteral ++ ")"
  | unreadableNumeral error => error.message

/-- Whether the fault is reported as a diagnostic. -/
def Fault.isReported : Fault → Bool
  | unreadableNumeral _ => false
  | _ => true

/-- A fault and the place where a token should have begun. -/
structure Error where
  fault : Fault
  position : Position
  deriving DecidableEq, Repr

/-- The diagnostic of an error (`make_lexical_error`). -/
def Error.diagnostic? (source : String) (e : Error) : Option Diagnostic :=
  if e.fault.isReported then
    some (.inText .lexical e.fault.text (some source) e.position.line (some e.position.column))
  else none

/-! ## One place -/

/-- What begins at a place outside a token. -/
inductive Lexeme where
  | blank
  | comment
  /-- A token and its number of characters, at least one. -/
  | token (kind : TokenKind) (length : Nat)
  | fault (fault : Fault)
  deriving DecidableEq, Repr

/-- The sign that begins with `c` when `next` follows, and its length. -/
def sign? : Char → Option Char → Option (TokenKind × Nat)
  | '=', some '=' => some (.equal, 2)
  | '!', some '=' => some (.notEqual, 2)
  | '&', some '&' => some (.and, 2)
  | '=', _ => some (.assign, 1)
  | '{', _ => some (.openBrace, 1)
  | '}', _ => some (.closeBrace, 1)
  | '(', _ => some (.openParen, 1)
  | ')', _ => some (.closeParen, 1)
  | _, _ => none

/-- The lexeme of a word that begins with a digit. -/
def numeralLexeme (word : List Char) : Lexeme :=
  if !word.all Char.isDigit then .fault (.gluedNumeral (String.ofList word))
  else if (word.dropWhile (· == '0')).length > (Nat.toDigits 10 maxLiteral).length then
    .fault (.outOfRange (String.ofList word))
  else
    match readDigits word with
    | .error e => .fault (.unreadableNumeral e)
    | .ok n =>
      if n ≤ maxLiteral then .token .number word.length
      else .fault (.outOfRange (String.ofList word))

/-- The lexeme that begins with `c` when `rest` follows. -/
def lexemeAt (c : Char) (rest : List Char) : Lexeme :=
  if isBlank c then .blank
  else if c = '/' ∧ rest.head? = some '/' then .comment
  else match sign? c rest.head? with
    | some (kind, length) => .token kind length
    | none =>
      let word := (c :: rest).takeWhile isNameChar
      if c.isDigit then numeralLexeme word
      else if isNameStart c then .token .name word.length
      else .fault (.unexpectedCharacter c)

/-! ## The whole text -/

/-- Where the scan stands. -/
inductive Mode where
  /-- So many characters of the last token are still to be passed over. -/
  | within (left : Nat)
  /-- Inside a comment. -/
  | comment
  deriving DecidableEq, Repr

/-- Outside tokens and comments. -/
@[match_pattern, reducible] def Mode.between : Mode := .within 0

/-- The tokens of the text that is left, the first of its characters standing at `p`. The last
token marks the end of the input. A comment takes up no columns, so after one on the last line the
end of the input stands where the comment begins. -/
def scanFrom : Mode → Position → List Char → Except Error (List Token)
  | _, p, [] => .ok [⟨.endOfInput, "", p⟩]
  | .comment, p, c :: rest =>
    if c = '\n' then scanFrom .between (p.after c) rest else scanFrom .comment p rest
  | .within (left + 1), p, c :: rest => scanFrom (.within left) (p.after c) rest
  | .between, p, c :: rest =>
    match lexemeAt c rest with
    | .blank => scanFrom .between (p.after c) rest
    | .comment => scanFrom .comment p rest
    | .fault fault => .error ⟨fault, p⟩
    | .token kind length => do
      let tokens ← scanFrom (.within (length - 1)) (p.after c) rest
      .ok (⟨kind, String.ofList ((c :: rest).take length), p⟩ :: tokens)

/-- The tokens of a source text (`tokenize`). -/
def tokens (source : String) : Except Error (List Token) :=
  scanFrom .between .start source.toList

end TapeCompiler.Scan
