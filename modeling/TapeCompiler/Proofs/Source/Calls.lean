import TapeCompiler.Source.Grammar
/-!
# The calls of a parse

The rules of the grammar once more, with a log: whenever one rule begins another, the call is
written down with the tokens before it and with those that it leaves, or with its error. But for
the log the rules are the same word for word, and the log has the calls that the rules begin and no
others (`mem_calls_iff`). The rounds of a block belong to one call, and so do those of a condition.
-/
namespace TapeCompiler.Grammar

/-- The rules that are called. Signs, numbers and keywords are read where they stand. -/
inductive RuleName where
  | program
  | block
  | braced
  | statement
  | branch
  | loop
  | transfer
  | assignment
  | condition
  | comparison
  | variable
  deriving DecidableEq, Repr

/-- One call of a rule. -/
structure Call where
  rule : RuleName
  /-- The tokens from the one on where the rule begins. -/
  tokens : List Token
  /-- The tokens that it leaves. -/
  result : Except Error (List Token)
  deriving Repr

/-- A computation with the calls that it makes, in the order in which they end. -/
structure Logged (α : Type) where
  result : Except Error α
  calls : List Call

namespace Logged

variable {α β : Type}

/-- A computation without calls. -/
def lift (result : Except Error α) : Logged α := ⟨result, []⟩

def fail (e : Error) : Logged α := lift (.error e)

/-- An error ends a computation; the calls made so far have been made. -/
def andThen (first : Logged α) (next : α → Logged β) : Logged β :=
  match first.result with
  | .ok a => ⟨(next a).result, first.calls ++ (next a).calls⟩
  | .error e => ⟨.error e, first.calls⟩

instance : Monad Logged where
  pure a := lift (.ok a)
  bind := andThen

/-- Calls a rule. -/
def call (rule : RuleName) (tokens : List Token) (body : Logged (α × List Token)) :
    Logged (α × List Token) :=
  ⟨body.result, body.calls ++ [⟨rule, tokens, body.result.map Prod.snd⟩]⟩

/-! ## Rules without blocks -/

def variableName (tokens : List Token) : Logged (String × List Token) :=
  call .variable tokens (lift (Grammar.variableName tokens))

def comparison (tokens : List Token) : Logged (Comparison × List Token) :=
  call .comparison tokens do
    let (name, rest) ← variableName tokens
    let (test, rest) ← lift (comparisonSign rest)
    let (value, rest) ← lift (number rest)
    return (⟨name, test, value⟩, rest)

def conditionWith : Nat → List Token → Logged (Condition × List Token)
  | 0, _ => fail .outOfFuel
  | fuel + 1, tokens => do
    let (first, rest) ← comparison tokens
    match rest with
    | [] => fail .pastEnd
    | t :: more =>
      if t.kind = .and then
        let (others, rest) ← conditionWith fuel more
        return (first :: others, rest)
      else return ([first], t :: more)

def condition (tokens : List Token) : Logged (Condition × List Token) :=
  call .condition tokens (conditionWith (tokens.length + 1) tokens)

def transfer (tokens : List Token) : Logged (Statement × List Token) :=
  call .transfer tokens <|
    match tokens with
    | [] => fail .pastEnd
    | t :: rest => do
      let (_, rest) ← lift (expect .openParen (.openParenAfter t.text) rest)
      let (name, rest) ← variableName rest
      let (_, rest) ← lift (expect .closeParen .closeParen rest)
      return (if t.text = "input" then .input name else .output name, rest)

def assignment (tokens : List Token) : Logged (Statement × List Token) :=
  call .assignment tokens do
    let (name, rest) ← variableName tokens
    let (_, rest) ← lift (expect .assign (.assignAfter name) rest)
    let (value, rest) ← lift (number rest)
    return (.assign name value, rest)

/-! ## Rules with blocks -/

mutual

def blockWith : Nat → List Token → Logged (Block × List Token)
  | 0, _ => fail .outOfFuel
  | _ + 1, [] => fail .pastEnd
  | fuel + 1, t :: more => do
    if t.kind = .endOfInput ∨ t.kind = .closeBrace then return ([], t :: more)
    else
      let (first, rest) ← statementWith fuel (t :: more)
      let (others, rest) ← blockWith fuel rest
      return (first :: others, rest)

def bracedWith : Nat → List Token → Logged (Block × List Token)
  | 0, _ => fail .outOfFuel
  | fuel + 1, tokens => call .braced tokens do
    let (_, rest) ← lift (expect .openBrace .openBrace tokens)
    let (body, rest) ← call .block rest (blockWith fuel rest)
    let (_, rest) ← lift (expect .closeBrace .closeBrace rest)
    return (body, rest)

def statementWith : Nat → List Token → Logged (Statement × List Token)
  | 0, _ => fail .outOfFuel
  | fuel + 1, tokens => call .statement tokens <|
    match tokens with
    | [] => fail .pastEnd
    | t :: more =>
      if t.kind ≠ .name then fail (.unexpected .statement t)
      else match t.text with
        | "if" => branchWith fuel (t :: more)
        | "while" => loopWith fuel (t :: more)
        | "move_right" => return (.move .right, more)
        | "move_left" => return (.move .left, more)
        | "input" | "output" => transfer (t :: more)
        | "else" => fail (.unexpected .statementNotElse t)
        | _ => assignment (t :: more)

def branchWith : Nat → List Token → Logged (Statement × List Token)
  | 0, _ => fail .outOfFuel
  | fuel + 1, tokens => call .branch tokens do
    let (_, rest) ← lift (keyword "if" tokens)
    let (cond, rest) ← condition rest
    let (body, rest) ← bracedWith fuel rest
    match rest with
    | [] => fail .pastEnd
    | t :: more =>
      if isKeyword "else" t then
        match more with
        | [] => fail .pastEnd
        | u :: _ =>
          if isKeyword "if" u then
            let (nested, rest) ← branchWith fuel more
            return (.branchElse cond body [nested], rest)
          else
            let (otherwise, rest) ← bracedWith fuel more
            return (.branchElse cond body otherwise, rest)
      else return (.branch cond body, t :: more)

def loopWith : Nat → List Token → Logged (Statement × List Token)
  | 0, _ => fail .outOfFuel
  | fuel + 1, tokens => call .loop tokens do
    let (_, rest) ← lift (keyword "while" tokens)
    let (cond, rest) ← condition rest
    let (body, rest) ← bracedWith fuel rest
    return (.loop cond body, rest)

end

def program (tokens : List Token) : Logged (Block × List Token) :=
  call .program tokens do
    let (statements, rest) ← call .block tokens (blockWith (fuelFor tokens) tokens)
    match rest with
    | [] => fail .pastEnd
    | t :: more =>
      if t.kind = .endOfInput then return (statements, t :: more)
      else fail (.unexpected .statementOrEnd t)

end Logged

end TapeCompiler.Grammar
