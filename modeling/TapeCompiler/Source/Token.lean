import TapeCompiler.Text.Quoted
/-!
# Tokens

A token is a piece of source text with its kind and its place. Tokens may also be made by hand, so
the text of one need not fit its kind and its place need not exist.
-/
namespace TapeCompiler

/-- A place in a text, both numbers counted from one. -/
structure Position where
  line : Int
  column : Int
  deriving DecidableEq, Repr

/-- The first place of every text. -/
def Position.start : Position := ⟨1, 1⟩

/-- The place behind one character. Only a line feed begins a line. -/
def Position.after (p : Position) (c : Char) : Position :=
  if c = '\n' then ⟨p.line + 1, 1⟩ else ⟨p.line, p.column + 1⟩

inductive TokenKind where
  | name
  | number
  | assign
  | equal
  | notEqual
  | and
  | openBrace
  | closeBrace
  | openParen
  | closeParen
  | endOfInput
  /-- A kind that the grammar has no use for. The scanner never makes one. -/
  | unknown
  deriving DecidableEq, Repr

structure Token where
  kind : TokenKind
  text : String
  position : Position
  deriving DecidableEq, Repr

/-- The token as a message names it. -/
def Token.describe (t : Token) : String :=
  if t.kind = .endOfInput then "end of input" else Text.quote t.text

end TapeCompiler
