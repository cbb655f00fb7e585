import TapeCompiler.Diagnostic.Basic
import TapeCompiler.Source.Scan
import TapeCompiler.Source.Statement
/-!
# From tokens to statements

    program    := block end
    block      := statement*
    statement  := branch | loop | "move_right" | "move_left" | transfer | assignment
    branch     := "if" condition braced ["else" (braced | branch)]
    loop       := "while" condition braced
    braced     := "{" block "}"
    transfer   := ("input" | "output") "(" variable ")"
    assignment := variable "=" number
    condition  := comparison ("&&" comparison)*
    comparison := variable ("==" | "!=") number

Every rule takes the tokens from its first one on and gives back what it has read together with the
tokens that are left. A rule that looks at a token it cannot use fails there and then, so the token
in an error is the first that fits no program.
-/
namespace TapeCompiler.Grammar

open TapeCompiler.Text

/-- What a rule was looking for. -/
inductive Expectation where
  | statementOrEnd
  | statement
  /-- A statement, where an `else` stands that belongs to no branch. -/
  | statementNotElse
  | openBrace
  | closeBrace
  | keyword (word : String)
  | openParenAfter (word : String)
  | closeParen
  | assignAfter (name : String)
  | number
  | comparisonSign
  | variableName
  /-- A variable, where a reserved word stands. -/
  | variableNotWord (word : String)
  deriving DecidableEq, Repr

def Expectation.text : Expectation → String
  | statementOrEnd => "statement or end of input"
  | statement => "statement"
  | statementNotElse => "statement ('else' without 'if')"
  | openBrace => "'\x7b'"
  | closeBrace => "'\x7d'"
  | keyword word => "'" ++ word ++ "'"
  | openParenAfter word => "'(' after '" ++ word ++ "'"
  | closeParen => "')'"
  | assignAfter name => "'=' after '" ++ name ++ "'"
  | number => "number"
  | comparisonSign => "'==' or '!='"
  | variableName => "variable"
  | variableNotWord word => "variable (" ++ quote word ++ " is a reserved word)"

/-- Why tokens are not a program. -/
inductive Error where
  | unexpected (expected : Expectation) (found : Token)
  /-- A number token whose text is no numeral. The scanner never makes one. -/
  | unreadableNumeral (error : NumeralError)
  /-- No end of input closes the tokens. -/
  | unterminated
  /-- A rule was begun so far on that it read beyond the last token. -/
  | pastEnd
  /-- The bound on nested rules ran out. -/
  | outOfFuel
  deriving DecidableEq, Repr

def Error.text : Error → String
  | unexpected expected found => "Expected " ++ expected.text ++ ", found " ++ found.describe
  | unreadableNumeral error => error.message
  | unterminated => "Token stream must end with EOF"
  | pastEnd => "tuple index out of range"
  | outOfFuel => "rules nested too deeply"

/-- The diagnostic of an error (`make_parse_error`). -/
def Error.diagnostic? (source : String) (e : Error) : Option Diagnostic :=
  match e with
  | unexpected _ found =>
    some (.inText .parse e.text (some source) found.position.line (some found.position.column))
  | _ => none

/-! ## Rules without blocks -/

/-- Words that name no variable. -/
def reservedWords : List String :=
  ["if", "else", "while", "move_right", "move_left", "input", "output"]

/-- Whether a token is the given word (`_at_keyword`). -/
def isKeyword (word : String) (t : Token) : Bool := t.kind == .name && t.text == word

/-- Reads one token of the given kind (`_expect`). -/
def expect (kind : TokenKind) (expected : Expectation) :
    List Token → Except Error (Token × List Token)
  | [] => .error .pastEnd
  | t :: rest => if t.kind = kind then .ok (t, rest) else .error (.unexpected expected t)

/-- Reads one keyword (`_keyword`). -/
def keyword (word : String) : List Token → Except Error (Unit × List Token)
  | [] => .error .pastEnd
  | t :: rest =>
    if isKeyword word t then .ok ((), rest) else .error (.unexpected (.keyword word) t)

/-- Reads a name that is no reserved word (`parse_variable`). -/
def variableName : List Token → Except Error (String × List Token)
  | [] => .error .pastEnd
  | t :: rest =>
    if t.kind ≠ .name then .error (.unexpected .variableName t)
    else if t.text ∈ reservedWords then .error (.unexpected (.variableNotWord t.text) t)
    else .ok (t.text, rest)

def number (tokens : List Token) : Except Error (Int × List Token) := do
  let (t, rest) ← expect .number .number tokens
  match readInteger t.text with
  | .ok n => .ok (n, rest)
  | .error e => .error (.unreadableNumeral e)

def comparisonSign : List Token → Except Error (Test × List Token)
  | [] => .error .pastEnd
  | t :: rest =>
    match t.kind with
    | .equal => .ok (.equal, rest)
    | .notEqual => .ok (.notEqual, rest)
    | _ => .error (.unexpected .comparisonSign t)

/-- Reads one comparison (`parse_compare`). -/
def comparison (tokens : List Token) : Except Error (Comparison × List Token) := do
  let (name, rest) ← variableName tokens
  let (test, rest) ← comparisonSign rest
  let (value, rest) ← number rest
  .ok (⟨name, test, value⟩, rest)

/-- Reads at most `fuel` comparisons. -/
def conditionWith : Nat → List Token → Except Error (Condition × List Token)
  | 0, _ => .error .outOfFuel
  | fuel + 1, tokens => do
    let (first, rest) ← comparison tokens
    match rest with
    | [] => .error .pastEnd
    | t :: more =>
      if t.kind = .and then
        let (others, rest) ← conditionWith fuel more
        .ok (first :: others, rest)
      else .ok ([first], t :: more)

/-- Reads a condition (`parse_condition`), which has fewer comparisons than there are tokens. -/
def condition (tokens : List Token) : Except Error (Condition × List Token) :=
  conditionWith (tokens.length + 1) tokens

/-- Reads an input or output statement (`parse_io`). The first word is taken as it is: all but
`input` stand for an output. -/
def transfer : List Token → Except Error (Statement × List Token)
  | [] => .error .pastEnd
  | t :: rest => do
    let (_, rest) ← expect .openParen (.openParenAfter t.text) rest
    let (name, rest) ← variableName rest
    let (_, rest) ← expect .closeParen .closeParen rest
    .ok (if t.text = "input" then .input name else .output name, rest)

/-- Reads an assignment (`parse_assign`). -/
def assignment (tokens : List Token) : Except Error (Statement × List Token) := do
  let (name, rest) ← variableName tokens
  let (_, rest) ← expect .assign (.assignAfter name) rest
  let (value, rest) ← number rest
  .ok (.assign name value, rest)

/-! ## Rules with blocks

The fuel bounds the depth of the calls. -/

mutual

/-- Reads the statements of a block (`parse_block`). -/
def blockWith : Nat → List Token → Except Error (Block × List Token)
  | 0, _ => .error .outOfFuel
  | _ + 1, [] => .error .pastEnd
  | fuel + 1, t :: more => do
    if t.kind = .endOfInput ∨ t.kind = .closeBrace then .ok ([], t :: more)
    else
      let (first, rest) ← statementWith fuel (t :: more)
      let (others, rest) ← blockWith fuel rest
      .ok (first :: others, rest)

/-- Reads a block in braces (`parse_braced_block`). -/
def bracedWith : Nat → List Token → Except Error (Block × List Token)
  | 0, _ => .error .outOfFuel
  | fuel + 1, tokens => do
    let (_, rest) ← expect .openBrace .openBrace tokens
    let (body, rest) ← blockWith fuel rest
    let (_, rest) ← expect .closeBrace .closeBrace rest
    .ok (body, rest)

/-- Reads one statement (`parse_statement`). -/
def statementWith : Nat → List Token → Except Error (Statement × List Token)
  | 0, _ => .error .outOfFuel
  | _ + 1, [] => .error .pastEnd
  | fuel + 1, t :: more =>
    if t.kind ≠ .name then .error (.unexpected .statement t)
    else match t.text with
      | "if" => branchWith fuel (t :: more)
      | "while" => loopWith fuel (t :: more)
      | "move_right" => .ok (.move .right, more)
      | "move_left" => .ok (.move .left, more)
      | "input" | "output" => transfer (t :: more)
      | "else" => .error (.unexpected .statementNotElse t)
      | _ => assignment (t :: more)

/-- Reads a branch with what belongs to it (`parse_if`). -/
def branchWith : Nat → List Token → Except Error (Statement × List Token)
  | 0, _ => .error .outOfFuel
  | fuel + 1, tokens => do
    let (_, rest) ← keyword "if" tokens
    let (cond, rest) ← condition rest
    let (body, rest) ← bracedWith fuel rest
    match rest with
    | [] => .error .pastEnd
    | t :: more =>
      if isKeyword "else" t then
        match more with
        | [] => .error .pastEnd
        | u :: _ =>
          if isKeyword "if" u then
            let (nested, rest) ← branchWith fuel more
            .ok (.branchElse cond body [nested], rest)
          else
            let (otherwise, rest) ← bracedWith fuel more
            .ok (.branchElse cond body otherwise, rest)
      else .ok (.branch cond body, t :: more)

/-- Reads a loop (`parse_while`). -/
def loopWith : Nat → List Token → Except Error (Statement × List Token)
  | 0, _ => .error .outOfFuel
  | fuel + 1, tokens => do
    let (_, rest) ← keyword "while" tokens
    let (cond, rest) ← condition rest
    let (body, rest) ← bracedWith fuel rest
    .ok (.loop cond body, rest)

end

/-- Enough fuel for every rule: each token is behind at most four nested calls. -/
def fuelFor (tokens : List Token) : Nat := 4 * tokens.length + 4

def block (tokens : List Token) : Except Error (Block × List Token) :=
  blockWith (fuelFor tokens) tokens

def braced (tokens : List Token) : Except Error (Block × List Token) :=
  bracedWith (fuelFor tokens) tokens

def statement (tokens : List Token) : Except Error (Statement × List Token) :=
  statementWith (fuelFor tokens) tokens

def branch (tokens : List Token) : Except Error (Statement × List Token) :=
  branchWith (fuelFor tokens) tokens

def loop (tokens : List Token) : Except Error (Statement × List Token) :=
  loopWith (fuelFor tokens) tokens

/-- Reads a block up to the end of the input, which is left unread (`parse_program`). -/
def program (tokens : List Token) : Except Error (Block × List Token) := do
  let (statements, rest) ← block tokens
  match rest with
  | [] => .error .pastEnd
  | t :: more =>
    if t.kind = .endOfInput then .ok (statements, t :: more)
    else .error (.unexpected .statementOrEnd t)

/-- The program that tokens stand for (`parse_tokens`). They have to close with the end of the
input. -/
def parseTokens (tokens : List Token) : Except Error Block :=
  if tokens.getLast?.any (·.kind == .endOfInput) then (program tokens).map Prod.fst
  else .error .unterminated

end TapeCompiler.Grammar
