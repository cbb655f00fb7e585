import Mathlib.Logic.Relation
import TapeCompiler.Proofs.Source.Inside
/-!
# The log of a parse is complete

Which rules a call of a rule begins is told by the rules themselves: by what they look at, and by what
the rules before have left (`Begins`). The log of a parse has all calls that are begun in this way from
the call of the program on, each with the result of its rule, and it has no others (`mem_calls_iff`).
So what is proved of the calls in the log is proved of all of them (`program_inside`). The bound on
nested calls makes no difference to this as long as it is large enough (`blockWith_congr`).
-/
namespace TapeCompiler.Grammar

variable {α β : Type}

/-! ## Calls that are begun -/

/-- What a rule leaves of some tokens. -/
def RuleName.result : RuleName → List Token → Except Error (List Token)
  | .program, tokens => (Grammar.program tokens).map Prod.snd
  | .block, tokens => (Grammar.block tokens).map Prod.snd
  | .braced, tokens => (Grammar.braced tokens).map Prod.snd
  | .statement, tokens => (Grammar.statement tokens).map Prod.snd
  | .branch, tokens => (Grammar.branch tokens).map Prod.snd
  | .loop, tokens => (Grammar.loop tokens).map Prod.snd
  | .transfer, tokens => (Grammar.transfer tokens).map Prod.snd
  | .assignment, tokens => (Grammar.assignment tokens).map Prod.snd
  | .condition, tokens => (Grammar.condition tokens).map Prod.snd
  | .comparison, tokens => (Grammar.comparison tokens).map Prod.snd
  | .variable, tokens => (variableName tokens).map Prod.snd

/-- The tokens at which the rounds of a block begin. -/
inductive BlockRound : List Token → List Token → Prop
  | first (tokens : List Token) : BlockRound tokens tokens
  | next {t : Token} {more rest others : List Token} {s : Statement}
    (hgo : ¬(t.kind = .endOfInput ∨ t.kind = .closeBrace))
    (hread : statement (t :: more) = .ok (s, rest)) (h : BlockRound rest others) :
    BlockRound (t :: more) others

/-- The tokens at which the comparisons of a condition begin. -/
inductive ConditionRound : List Token → List Token → Prop
  | first (tokens : List Token) : ConditionRound tokens tokens
  | next {t : Token} {tokens more others : List Token} {c : Comparison}
    (hread : comparison tokens = .ok (c, t :: more)) (hand : t.kind = .and)
    (h : ConditionRound more others) : ConditionRound tokens others

/-- The rule for a statement that begins with a token. Moves are read where they stand. -/
def ruleOf (t : Token) : Option RuleName :=
  if t.kind ≠ .name then none
  else match t.text with
    | "if" => some .branch
    | "while" => some .loop
    | "input" | "output" => some .transfer
    | "move_right" | "move_left" | "else" => none
    | _ => some .assignment

/-- A call of a rule begins a call of another. -/
inductive Begins : RuleName × List Token → RuleName × List Token → Prop
  | programBlock (tokens : List Token) : Begins (.program, tokens) (.block, tokens)
  | blockStatement {t : Token} {tokens more : List Token} (h : BlockRound tokens (t :: more))
    (hgo : ¬(t.kind = .endOfInput ∨ t.kind = .closeBrace)) :
    Begins (.block, tokens) (.statement, t :: more)
  | bracedBlock {t : Token} {tokens rest : List Token}
    (h : expect .openBrace .openBrace tokens = .ok (t, rest)) :
    Begins (.braced, tokens) (.block, rest)
  | statement {t : Token} {more : List Token} {rule : RuleName} (h : ruleOf t = some rule) :
    Begins (.statement, t :: more) (rule, t :: more)
  | branchCondition {tokens rest : List Token} (h : keyword "if" tokens = .ok ((), rest)) :
    Begins (.branch, tokens) (.condition, rest)
  | branchBraced {tokens rest rest' : List Token} {c : Condition}
    (h : keyword "if" tokens = .ok ((), rest)) (hcondition : condition rest = .ok (c, rest')) :
    Begins (.branch, tokens) (.braced, rest')
  | elseBranch {t u : Token} {tokens rest rest' more : List Token} {c : Condition} {body : Block}
    (h : keyword "if" tokens = .ok ((), rest)) (hcondition : condition rest = .ok (c, rest'))
    (hbody : braced rest' = .ok (body, t :: u :: more)) (helse : isKeyword "else" t = true)
    (hif : isKeyword "if" u = true) : Begins (.branch, tokens) (.branch, u :: more)
  | elseBraced {t u : Token} {tokens rest rest' more : List Token} {c : Condition} {body : Block}
    (h : keyword "if" tokens = .ok ((), rest)) (hcondition : condition rest = .ok (c, rest'))
    (hbody : braced rest' = .ok (body, t :: u :: more)) (helse : isKeyword "else" t = true)
    (hif : isKeyword "if" u = false) : Begins (.branch, tokens) (.braced, u :: more)
  | loopCondition {tokens rest : List Token} (h : keyword "while" tokens = .ok ((), rest)) :
    Begins (.loop, tokens) (.condition, rest)
  | loopBraced {tokens rest rest' : List Token} {c : Condition}
    (h : keyword "while" tokens = .ok ((), rest)) (hcondition : condition rest = .ok (c, rest')) :
    Begins (.loop, tokens) (.braced, rest')
  | transferVariable {t u : Token} {more rest : List Token}
    (h : expect .openParen (.openParenAfter t.text) more = .ok (u, rest)) :
    Begins (.transfer, t :: more) (.variable, rest)
  | assignmentVariable (tokens : List Token) : Begins (.assignment, tokens) (.variable, tokens)
  | conditionComparison {tokens others : List Token} (h : ConditionRound tokens others) :
    Begins (.condition, tokens) (.comparison, others)
  | comparisonVariable (tokens : List Token) : Begins (.comparison, tokens) (.variable, tokens)

/-- A call begins another, through any number of calls between them or none. -/
abbrev Begun : RuleName × List Token → RuleName × List Token → Prop := Relation.ReflTransGen Begins

/-- The calls that a call begins, itself not among them. -/
def Below (x y : RuleName × List Token) : Prop := ∃ z, Begins x z ∧ Begun z y

theorem begun_iff {x y : RuleName × List Token} : Begun x y ↔ Below x y ∨ y = x := by
  rw [Begun, Relation.ReflTransGen.cases_head_iff, or_comm, eq_comm]
  rfl

/-! ## Fuel -/

theorem bind_congr_of_advances {m : Nat} {tokens : List Token}
    {first first' : Except Error (α × List Token)}
    {next next' : α × List Token → Except Error (β × List Token)} (h : Advances m tokens first)
    (htokens : HasEnd tokens) (hfirst : first = first')
    (hnext : ∀ a rest, HasEnd rest → rest.length + m ≤ tokens.length →
      next (a, rest) = next' (a, rest)) : first >>= next = first' >>= next' := by
  subst hfirst
  cases first with
  | error e => rfl
  | ok read =>
    obtain ⟨a, rest⟩ := read
    obtain ⟨used, rfl, hused, hend⟩ := h.ok rfl
    exact hnext a rest (htokens.behind hend) (by rw [List.length_append]; omega)

mutual

/-- Fuel that is enough for a block gives the block. -/
theorem blockWith_congr : ∀ (fuel fuel' : Nat) {tokens : List Token}, HasEnd tokens →
    4 * tokens.length ≤ fuel → 4 * tokens.length ≤ fuel' →
      blockWith fuel tokens = blockWith fuel' tokens
  | 0, _, _, h, hfuel, _ | _ + 1, 0, _, h, _, hfuel => absurd h.length_pos (by omega)
  | fuel + 1, fuel' + 1, tokens, h, hfuel, hfuel' => by
    obtain ⟨t, more, rfl⟩ := h.exists_cons
    rw [blockWith, blockWith]
    split
    · rfl
    · exact bind_congr_of_advances (runs_statementWith fuel h (by omega)).advances h
        (statementWith_congr fuel fuel' h (by omega) (by omega)) fun _ _ h hrest =>
          bind_congr_of_advances (runs_blockWith fuel h (by omega)).advances h
            (blockWith_congr fuel fuel' h (by omega) (by omega)) fun _ _ _ _ => rfl

theorem bracedWith_congr : ∀ (fuel fuel' : Nat) {tokens : List Token}, HasEnd tokens →
    4 * tokens.length ≤ fuel + 3 → 4 * tokens.length ≤ fuel' + 3 →
      bracedWith fuel tokens = bracedWith fuel' tokens
  | 0, _, _, h, hfuel, _ | _ + 1, 0, _, h, _, hfuel => absurd h.length_pos (by omega)
  | fuel + 1, fuel' + 1, tokens, h, hfuel, hfuel' => by
    rw [bracedWith, bracedWith]
    exact bind_congr_of_advances (advances_expect h (by decide) _) h rfl fun _ _ h hrest =>
      bind_congr_of_advances (runs_blockWith fuel h (by omega)).advances h
        (blockWith_congr fuel fuel' h (by omega) (by omega)) fun _ _ _ _ => rfl

theorem statementWith_congr : ∀ (fuel fuel' : Nat) {tokens : List Token}, HasEnd tokens →
    4 * tokens.length ≤ fuel + 1 → 4 * tokens.length ≤ fuel' + 1 →
      statementWith fuel tokens = statementWith fuel' tokens
  | 0, _, _, h, hfuel, _ | _ + 1, 0, _, h, _, hfuel => absurd h.length_pos (by omega)
  | fuel + 1, fuel' + 1, tokens, h, hfuel, hfuel' => by
    obtain ⟨t, more, rfl⟩ := h.exists_cons
    rw [statementWith, statementWith, branchWith_congr fuel fuel' h (by omega) (by omega),
      loopWith_congr fuel fuel' h (by omega) (by omega)]

theorem branchWith_congr : ∀ (fuel fuel' : Nat) {tokens : List Token}, HasEnd tokens →
    4 * tokens.length ≤ fuel + 2 → 4 * tokens.length ≤ fuel' + 2 →
      branchWith fuel tokens = branchWith fuel' tokens
  | 0, _, _, h, hfuel, _ | _ + 1, 0, _, h, _, hfuel => absurd h.length_pos (by omega)
  | fuel + 1, fuel' + 1, tokens, h, hfuel, hfuel' => by
    rw [branchWith, branchWith]
    refine bind_congr_of_advances (advances_keyword h "if") h rfl fun _ _ h hkeyword =>
      bind_congr_of_advances (runs_condition h).advances h rfl fun condition rest h hcondition =>
        bind_congr_of_advances (runs_bracedWith fuel h (by omega)).advances h
          (bracedWith_congr fuel fuel' h (by omega) (by omega)) fun body rest h hbraced => ?_
    obtain ⟨t, more, rfl⟩ := h.exists_cons
    rw [List.length_cons] at hbraced
    simp only
    split
    · next helse =>
      have hmore := h.tail (t := t) (by simp [(isKeyword_iff.1 helse).1])
      obtain ⟨u, others, rfl⟩ := hmore.exists_cons
      simp only [branchWith_congr fuel fuel' hmore (by omega) (by omega),
        bracedWith_congr fuel fuel' hmore (by omega) (by omega)]
    · rfl

theorem loopWith_congr : ∀ (fuel fuel' : Nat) {tokens : List Token}, HasEnd tokens →
    4 * tokens.length ≤ fuel + 2 → 4 * tokens.length ≤ fuel' + 2 →
      loopWith fuel tokens = loopWith fuel' tokens
  | 0, _, _, h, hfuel, _ | _ + 1, 0, _, h, _, hfuel => absurd h.length_pos (by omega)
  | fuel + 1, fuel' + 1, tokens, h, hfuel, hfuel' => by
    rw [loopWith, loopWith]
    exact bind_congr_of_advances (advances_keyword h "while") h rfl fun _ _ h hkeyword =>
      bind_congr_of_advances (runs_condition h).advances h rfl fun condition rest h hcondition =>
        bind_congr_of_advances (runs_bracedWith fuel h (by omega)).advances h
          (bracedWith_congr fuel fuel' h (by omega) (by omega)) fun _ _ _ _ => rfl

end

section

variable {tokens : List Token} (fuel : Nat) (h : HasEnd tokens)

include h

theorem runs_block (hfuel : 4 * tokens.length ≤ fuel) :
    Runs 0 tokens (Logged.blockWith fuel tokens) (block tokens) := by
  have hruns := runs_blockWith fuel h hfuel
  rwa [blockWith_congr fuel (fuelFor tokens) h hfuel (by simp [fuelFor])] at hruns

theorem runs_braced (hfuel : 4 * tokens.length ≤ fuel + 3) :
    Runs 1 tokens (Logged.bracedWith fuel tokens) (braced tokens) := by
  have hruns := runs_bracedWith fuel h hfuel
  rwa [bracedWith_congr fuel (fuelFor tokens) h hfuel (by rw [fuelFor]; omega)] at hruns

theorem runs_statement (hfuel : 4 * tokens.length ≤ fuel + 1) :
    Runs 1 tokens (Logged.statementWith fuel tokens) (statement tokens) := by
  have hruns := runs_statementWith fuel h hfuel
  rwa [statementWith_congr fuel (fuelFor tokens) h hfuel (by rw [fuelFor]; omega)] at hruns

theorem runs_branch (hfuel : 4 * tokens.length ≤ fuel + 2) :
    Runs 1 tokens (Logged.branchWith fuel tokens) (branch tokens) := by
  have hruns := runs_branchWith fuel h hfuel
  rwa [branchWith_congr fuel (fuelFor tokens) h hfuel (by rw [fuelFor]; omega)] at hruns

theorem runs_loop (hfuel : 4 * tokens.length ≤ fuel + 2) :
    Runs 1 tokens (Logged.loopWith fuel tokens) (loop tokens) := by
  have hruns := runs_loopWith fuel h hfuel
  rwa [loopWith_congr fuel (fuelFor tokens) h hfuel (by rw [fuelFor]; omega)] at hruns

end

/-! ## Logs -/

/-- The calls of a run are those that `P` is true of, each with the result of its rule. -/
def Logs (run : Logged α) (P : RuleName × List Token → Prop) : Prop :=
  ∀ c : Call, c ∈ run.calls ↔ P (c.rule, c.tokens) ∧ c.result = c.rule.result c.tokens

namespace Logs

variable {m : Nat} {rule : RuleName} {tokens : List Token} {P Q : RuleName × List Token → Prop}

theorem congr {run : Logged α} (h : Logs run P) (hPQ : ∀ x, P x ↔ Q x) : Logs run Q := fun c => by
  rw [h c, hPQ]

theorem none (result : Except Error α) : Logs (.lift result) fun _ => False := fun c => by
  simp [Logged.lift]

/-- A call is behind the calls that it begins. -/
theorem call {body : Logged (β × List Token)} (h : Logs body (Below (rule, tokens)))
    (hresult : body.result.map Prod.snd = rule.result tokens) :
    Logs (.call rule tokens body) (Begun (rule, tokens)) := by
  rintro ⟨rule', tokens', result⟩
  rw [begun_iff, or_and_right, ← h]
  simp only [Logged.call, List.mem_append, List.mem_singleton, Call.mk.injEq, Prod.mk.injEq, hresult]
  refine or_congr_right ?_
  constructor
  · rintro ⟨rfl, rfl, rfl⟩
    exact ⟨⟨rfl, rfl⟩, rfl⟩
  · rintro ⟨⟨rfl, rfl⟩, rfl⟩
    exact ⟨rfl, rfl, rfl⟩

/-- One rule after another. What the second logs depends on what the first has left. -/
theorem bind {run : Logged (α × List Token)} {first : Except Error (α × List Token)}
    {nextRun : α × List Token → Logged (β × List Token)}
    {Q : α → List Token → RuleName × List Token → Prop} (h : Logs run P)
    (hruns : Runs m tokens run first) (htokens : HasEnd tokens)
    (h' : ∀ a rest, HasEnd rest → rest.length + m ≤ tokens.length →
      Logs (nextRun (a, rest)) (Q a rest)) :
    Logs (run >>= nextRun) fun x => P x ∨ ∃ a rest, first = .ok (a, rest) ∧ Q a rest x := by
  intro c
  obtain ⟨found, calls⟩ := run
  obtain rfl : found = first := hruns.result_eq
  cases found with
  | error e =>
    have hcalls : c ∈ calls ↔ _ := h c
    simp only [reduceCtorEq, false_and, exists_false, or_false]
    exact hcalls
  | ok read =>
    obtain ⟨a, rest⟩ := read
    obtain ⟨used, rfl, hused, hend⟩ := hruns.advances.ok rfl
    have hnext := h' a rest (htokens.behind hend) (by rw [List.length_append]; omega) c
    have hcalls : c ∈ calls ↔ _ := h c
    simp only [Except.ok.injEq, Prod.mk.injEq]
    show c ∈ calls ++ (nextRun (a, rest)).calls ↔ _
    rw [List.mem_append, hcalls, hnext, ← or_and_right]
    refine and_congr_left fun _ => or_congr_right ⟨fun hQ => ⟨a, rest, ⟨rfl, rfl⟩, hQ⟩, ?_⟩
    rintro ⟨_, _, ⟨rfl, rfl⟩, hQ⟩
    exact hQ

end Logs

/-! ## Rules without blocks -/

section

variable {t : Token} {tokens more : List Token} {x : RuleName × List Token}

theorem not_below_variable : ¬Below (.variable, tokens) x := by
  rintro ⟨_, ⟨⟩, -⟩

theorem below_comparison : Below (.comparison, tokens) x ↔ Begun (.variable, tokens) x := by
  constructor
  · rintro ⟨_, ⟨⟩, h⟩
    exact h
  · exact fun h => ⟨_, .comparisonVariable tokens, h⟩

theorem below_condition : Below (.condition, tokens) x ↔ Begun (.comparison, tokens) x ∨
    ∃ c rest, comparison tokens = .ok (c, rest) ∧
      ∃ t more, rest = t :: more ∧ t.kind = .and ∧ Below (.condition, more) x := by
  constructor
  · rintro ⟨_, ⟨⟩ | _, h⟩
    next hround =>
    cases hround with
    | first => exact .inl h
    | next hread hand hround =>
      exact .inr ⟨_, _, hread, _, _, rfl, hand, _, .conditionComparison hround, h⟩
  · rintro (h | ⟨c, _, hread, t, more, rfl, hand, _, hbegins, h⟩)
    · exact ⟨_, .conditionComparison (.first tokens), h⟩
    · cases hbegins with
      | conditionComparison hround => exact ⟨_, .conditionComparison (.next hread hand hround), h⟩

theorem below_assignment : Below (.assignment, tokens) x ↔ Begun (.variable, tokens) x := by
  constructor
  · rintro ⟨_, ⟨⟩, h⟩
    exact h
  · exact fun h => ⟨_, .assignmentVariable tokens, h⟩

theorem below_transfer : Below (.transfer, t :: more) x ↔ ∃ u rest,
    expect .openParen (.openParenAfter t.text) more = .ok (u, rest) ∧ Begun (.variable, rest) x := by
  constructor
  · rintro ⟨_, hbegins, h⟩
    cases hbegins with
    | transferVariable hopen => exact ⟨_, _, hopen, h⟩
  · rintro ⟨u, rest, hopen, h⟩
    exact ⟨_, .transferVariable hopen, h⟩

theorem logs_variableName (tokens : List Token) :
    Logs (Logged.variableName tokens) (Begun (.variable, tokens)) :=
  .call ((Logs.none _).congr fun _ => (iff_false_intro not_below_variable).symm) rfl

theorem logs_comparison (h : HasEnd tokens) :
    Logs (Logged.comparison tokens) (Begun (.comparison, tokens)) := by
  refine .call (.congr (.bind (logs_variableName tokens) (runs_variableName h) h fun _ _ h _ =>
    .bind (.none _) (.lift (advances_comparisonSign h)) h fun _ _ h _ =>
      .bind (.none _) (.lift (advances_number h)) h fun _ _ _ _ => .none _) fun x => ?_)
    (congrArg (Except.map Prod.snd) (runs_comparison h).result_eq)
  simp only [and_false, exists_false, or_false, below_comparison]

theorem logs_conditionWith {fuel : Nat} (h : HasEnd tokens) (hfuel : tokens.length < fuel) :
    Logs (Logged.conditionWith fuel tokens) (Below (.condition, tokens)) := by
  induction fuel generalizing tokens with
  | zero => exact absurd hfuel (Nat.not_lt_zero _)
  | succ fuel ih =>
    refine .congr (.bind (Q := fun _ rest x =>
        ∃ t more, rest = t :: more ∧ t.kind = .and ∧ Below (.condition, more) x)
      (logs_comparison h) (runs_comparison h) h fun first rest h hrest => ?_)
      fun x => below_condition.symm
    obtain ⟨t, more, rfl⟩ := h.exists_cons
    rw [List.length_cons] at hrest
    simp only
    split
    · next hand =>
      have hmore := h.tail (t := t) (by simp [hand])
      refine .congr (.bind (ih hmore (by omega)) (runs_conditionWith hmore (by omega)) hmore
        fun _ _ _ _ => .none _) fun x => ?_
      simp [hand]
    · next hand =>
      refine .congr (.none _) fun x => ?_
      simp [hand]

theorem logs_condition (h : HasEnd tokens) :
    Logs (Logged.condition tokens) (Begun (.condition, tokens)) :=
  .call (logs_conditionWith h (Nat.lt_succ_self _))
    (congrArg (Except.map Prod.snd) (runs_condition h).result_eq)

theorem logs_assignment (h : HasEnd tokens) :
    Logs (Logged.assignment tokens) (Begun (.assignment, tokens)) := by
  refine .call (.congr (.bind (logs_variableName tokens) (runs_variableName h) h fun _ _ h _ =>
    .bind (.none _) (.lift (advances_expect h (by decide) _)) h fun _ _ h _ =>
      .bind (.none _) (.lift (advances_number h)) h fun _ _ _ _ => .none _) fun x => ?_)
    (congrArg (Except.map Prod.snd) (runs_assignment h).result_eq)
  simp only [and_false, exists_false, or_false, below_assignment]

theorem logs_transfer (ht : t.kind ≠ .endOfInput) (h : HasEnd (t :: more)) :
    Logs (Logged.transfer (t :: more)) (Begun (.transfer, t :: more)) := by
  have hmore := h.tail ht
  refine .call (.congr (.bind (.none _) (.lift (advances_expect hmore (by decide) _)) hmore
    fun _ rest h _ => .bind (logs_variableName rest) (runs_variableName h) h fun _ _ h _ =>
      .bind (.none _) (.lift (advances_expect h (by decide) _)) h fun _ _ _ _ => .none _) fun x => ?_)
    (congrArg (Except.map Prod.snd) (runs_transfer ht h).result_eq)
  simp only [and_false, exists_false, or_false, false_or, below_transfer]

/-! ## Rules with blocks -/

theorem below_block : Below (.block, t :: more) x ↔
    ¬(t.kind = .endOfInput ∨ t.kind = .closeBrace) ∧ (Begun (.statement, t :: more) x ∨
      ∃ s rest, statement (t :: more) = .ok (s, rest) ∧ Below (.block, rest) x) := by
  constructor
  · rintro ⟨_, hbegins, h⟩
    cases hbegins with
    | blockStatement hround hgo =>
      cases hround with
      | first => exact ⟨hgo, .inl h⟩
      | next hgo' hread hround =>
        exact ⟨hgo', .inr ⟨_, _, hread, _, .blockStatement hround hgo, h⟩⟩
  · rintro ⟨hgo, h | ⟨s, rest, hread, _, hbegins, h⟩⟩
    · exact ⟨_, .blockStatement (.first _) hgo, h⟩
    · cases hbegins with
      | blockStatement hround hgo' => exact ⟨_, .blockStatement (.next hgo hread hround) hgo', h⟩

theorem below_braced : Below (.braced, tokens) x ↔ ∃ t rest,
    expect .openBrace .openBrace tokens = .ok (t, rest) ∧ Begun (.block, rest) x := by
  constructor
  · rintro ⟨_, hbegins, h⟩
    cases hbegins with
    | bracedBlock hopen => exact ⟨_, _, hopen, h⟩
  · rintro ⟨t, rest, hopen, h⟩
    exact ⟨_, .bracedBlock hopen, h⟩

theorem below_statement : Below (.statement, t :: more) x ↔
    ∃ rule, ruleOf t = some rule ∧ Begun (rule, t :: more) x := by
  constructor
  · rintro ⟨_, hbegins, h⟩
    cases hbegins with
    | statement hrule => exact ⟨_, hrule, h⟩
  · rintro ⟨rule, hrule, h⟩
    exact ⟨_, .statement hrule, h⟩

theorem below_loop : Below (.loop, tokens) x ↔ ∃ u rest, keyword "while" tokens = .ok (u, rest) ∧
    (Begun (.condition, rest) x ∨
      ∃ c rest', condition rest = .ok (c, rest') ∧ Begun (.braced, rest') x) := by
  constructor
  · rintro ⟨_, hbegins, h⟩
    cases hbegins with
    | loopCondition hword => exact ⟨_, _, hword, .inl h⟩
    | loopBraced hword hcondition => exact ⟨_, _, hword, .inr ⟨_, _, hcondition, h⟩⟩
  · rintro ⟨_, rest, hword, h | ⟨c, rest', hcondition, h⟩⟩
    · exact ⟨_, .loopCondition hword, h⟩
    · exact ⟨_, .loopBraced hword hcondition, h⟩

/-- The calls behind the first part of a branch. -/
def BelowElse (rest : List Token) (x : RuleName × List Token) : Prop :=
  ∃ t u more, rest = t :: u :: more ∧ isKeyword "else" t = true ∧
    (isKeyword "if" u = true ∧ Begun (.branch, u :: more) x ∨
      isKeyword "if" u = false ∧ Begun (.braced, u :: more) x)

theorem below_branch : Below (.branch, tokens) x ↔ ∃ u rest, keyword "if" tokens = .ok (u, rest) ∧
    (Begun (.condition, rest) x ∨ ∃ c rest', condition rest = .ok (c, rest') ∧
      (Begun (.braced, rest') x ∨
        ∃ body rest'', braced rest' = .ok (body, rest'') ∧ BelowElse rest'' x)) := by
  constructor
  · rintro ⟨_, hbegins, h⟩
    cases hbegins with
    | branchCondition hword => exact ⟨_, _, hword, .inl h⟩
    | branchBraced hword hcondition => exact ⟨_, _, hword, .inr ⟨_, _, hcondition, .inl h⟩⟩
    | elseBranch hword hcondition hbody helse hif =>
      exact ⟨_, _, hword, .inr ⟨_, _, hcondition, .inr ⟨_, _, hbody, _, _, _, rfl, helse,
        .inl ⟨hif, h⟩⟩⟩⟩
    | elseBraced hword hcondition hbody helse hif =>
      exact ⟨_, _, hword, .inr ⟨_, _, hcondition, .inr ⟨_, _, hbody, _, _, _, rfl, helse,
        .inr ⟨hif, h⟩⟩⟩⟩
  · rintro ⟨_, rest, hword, h | ⟨c, rest', hcondition, h | ⟨body, _, hbody, t, u, more, rfl, helse,
      ⟨hif, h⟩ | ⟨hif, h⟩⟩⟩⟩
    · exact ⟨_, .branchCondition hword, h⟩
    · exact ⟨_, .branchBraced hword hcondition, h⟩
    · exact ⟨_, .elseBranch hword hcondition hbody helse hif, h⟩
    · exact ⟨_, .elseBraced hword hcondition hbody helse hif, h⟩

mutual

theorem logs_blockWith : ∀ (fuel : Nat) {tokens : List Token}, HasEnd tokens →
    4 * tokens.length ≤ fuel → Logs (Logged.blockWith fuel tokens) (Below (.block, tokens))
  | 0, _, h, hfuel => absurd h.length_pos (by omega)
  | fuel + 1, tokens, h, hfuel => by
    obtain ⟨t, more, rfl⟩ := h.exists_cons
    rw [Logged.blockWith]
    split
    · next hends =>
      exact .congr (.none _) fun x => by simp [below_block, hends]
    · next hgo =>
      refine .congr (.bind (logs_statementWith fuel h (by omega))
        (runs_statement fuel h (by omega)) h fun _ _ h hrest =>
          .bind (logs_blockWith fuel h (by omega)) (runs_block fuel h (by omega)) h
            fun _ _ _ _ => .none _) fun x => ?_
      simp only [and_false, exists_false, or_false, below_block, hgo, not_false_eq_true, true_and]

theorem logs_bracedWith : ∀ (fuel : Nat) {tokens : List Token}, HasEnd tokens →
    4 * tokens.length ≤ fuel + 3 →
      Logs (Logged.bracedWith fuel tokens) (Begun (.braced, tokens))
  | 0, _, h, hfuel => absurd h.length_pos (by omega)
  | fuel + 1, tokens, h, hfuel => by
    refine .call (.congr (.bind (.none _) (.lift (advances_expect h (by decide) _)) h
      fun _ rest h hrest => .bind (.call (logs_blockWith fuel h (by omega)) ?_)
        (.call (runs_block fuel h (by omega)) h (Nat.le_refl 0)) h fun _ _ h _ =>
          .bind (.none _) (.lift (advances_expect h (by decide) _)) h fun _ _ _ _ => .none _)
      fun x => ?_) (congrArg (Except.map Prod.snd) (runs_braced (fuel + 1) h hfuel).result_eq)
    · exact congrArg (Except.map Prod.snd) (runs_block fuel h (by omega)).result_eq
    · simp only [and_false, exists_false, or_false, false_or, below_braced]

theorem logs_statementWith : ∀ (fuel : Nat) {tokens : List Token}, HasEnd tokens →
    4 * tokens.length ≤ fuel + 1 →
      Logs (Logged.statementWith fuel tokens) (Begun (.statement, tokens))
  | 0, _, h, hfuel => absurd h.length_pos (by omega)
  | fuel + 1, tokens, h, hfuel => by
    have hresult := congrArg (Except.map Prod.snd) (runs_statement (fuel + 1) h hfuel).result_eq
    obtain ⟨t, more, rfl⟩ := h.exists_cons
    rw [Logged.statementWith] at hresult ⊢
    refine .call (.congr (P := fun x => ∃ rule, ruleOf t = some rule ∧ Begun (rule, t :: more) x)
      ?_ fun x => below_statement.symm) hresult
    by_cases hkind : t.kind = .name
    swap
    · rw [if_pos hkind]
      exact .congr (.none _) fun x => by simp [ruleOf, hkind]
    have hend : t.kind ≠ .endOfInput := by simp [hkind]
    rw [if_neg (not_not.2 hkind)]
    split
    · next htext =>
      exact .congr (logs_branchWith fuel h (by omega)) fun x => by simp [ruleOf, hkind, htext]
    · next htext =>
      exact .congr (logs_loopWith fuel h (by omega)) fun x => by simp [ruleOf, hkind, htext]
    · next htext => exact .congr (.none _) fun x => by simp [ruleOf, hkind, htext]
    · next htext => exact .congr (.none _) fun x => by simp [ruleOf, hkind, htext]
    · next htext => exact .congr (logs_transfer hend h) fun x => by simp [ruleOf, hkind, htext]
    · next htext => exact .congr (logs_transfer hend h) fun x => by simp [ruleOf, hkind, htext]
    · next htext => exact .congr (.none _) fun x => by simp [ruleOf, hkind, htext]
    · exact .congr (logs_assignment h) fun x => by simp [ruleOf, *]

theorem logs_branchWith : ∀ (fuel : Nat) {tokens : List Token}, HasEnd tokens →
    4 * tokens.length ≤ fuel + 2 →
      Logs (Logged.branchWith fuel tokens) (Begun (.branch, tokens))
  | 0, _, h, hfuel => absurd h.length_pos (by omega)
  | fuel + 1, tokens, h, hfuel => by
    refine .call (.congr (.bind (.none _) (.lift (advances_keyword h "if")) h
      fun _ rest h hkeyword => .bind (logs_condition h) (runs_condition h) h
        fun condition rest h hcondition => .bind (Q := fun _ rest => BelowElse rest)
          (logs_bracedWith fuel h (by omega)) (runs_braced fuel h (by omega)) h
            fun body rest h hbraced => ?_) fun x => ?_)
      (congrArg (Except.map Prod.snd) (runs_branch (fuel + 1) h hfuel).result_eq)
    swap
    · simp only [false_or, below_branch]
    obtain ⟨t, more, rfl⟩ := h.exists_cons
    rw [List.length_cons] at hbraced
    simp only
    split
    · next helse =>
      have hmore := h.tail (t := t) (by simp [(isKeyword_iff.1 helse).1])
      obtain ⟨u, others, rfl⟩ := hmore.exists_cons
      simp only
      split
      · next hif =>
        refine .congr (.bind (logs_branchWith fuel hmore (by omega))
          (runs_branch fuel hmore (by omega)) hmore fun _ _ _ _ => .none _) fun x => ?_
        simp [BelowElse, helse, hif]
      · next hif =>
        refine .congr (.bind (logs_bracedWith fuel hmore (by omega))
          (runs_braced fuel hmore (by omega)) hmore fun _ _ _ _ => .none _) fun x => ?_
        simp [BelowElse, helse, hif]
    · next helse => exact .congr (.none _) fun x => by simp [BelowElse, helse]

theorem logs_loopWith : ∀ (fuel : Nat) {tokens : List Token}, HasEnd tokens →
    4 * tokens.length ≤ fuel + 2 → Logs (Logged.loopWith fuel tokens) (Begun (.loop, tokens))
  | 0, _, h, hfuel => absurd h.length_pos (by omega)
  | fuel + 1, tokens, h, hfuel => by
    refine .call (.congr (.bind (.none _) (.lift (advances_keyword h "while")) h
      fun _ rest h hkeyword => .bind (logs_condition h) (runs_condition h) h fun _ _ h _ =>
        .bind (logs_bracedWith fuel h (by omega)) (runs_braced fuel h (by omega)) h
          fun _ _ _ _ => .none _) fun x => ?_)
      (congrArg (Except.map Prod.snd) (runs_loop (fuel + 1) h hfuel).result_eq)
    simp only [and_false, exists_false, or_false, false_or, below_loop]

end

/-! ## Programs -/

theorem below_program : Below (.program, tokens) x ↔ Begun (.block, tokens) x := by
  constructor
  · rintro ⟨_, ⟨⟩, h⟩
    exact h
  · exact fun h => ⟨_, .programBlock tokens, h⟩

theorem logs_program (h : HasEnd tokens) :
    Logs (Logged.program tokens) (Begun (.program, tokens)) := by
  have hfuel : 4 * tokens.length ≤ fuelFor tokens := by simp [fuelFor]
  have hblock := runs_block (fuelFor tokens) h hfuel
  refine .call (.congr (.bind (Q := fun _ _ _ => False)
    (.call (logs_blockWith (fuelFor tokens) h hfuel)
      (congrArg (Except.map Prod.snd) hblock.result_eq)) (.call hblock h (Nat.le_refl 0)) h
    fun statements rest h _ => ?_) fun x => ?_)
    (congrArg (Except.map Prod.snd) (runs_program h).result_eq)
  · obtain ⟨t, more, rfl⟩ := h.exists_cons
    simp only
    split <;> exact .none _
  · simp only [and_false, exists_false, or_false, below_program]

/-- **The log has every call, and nothing else.** The calls in the log of a parse are those that the
call of the program begins, each with the result of its rule. -/
theorem mem_calls_iff (h : HasEnd tokens) {c : Call} : c ∈ (Logged.program tokens).calls ↔
    Begun (.program, tokens) (c.rule, c.tokens) ∧ c.result = c.rule.result c.tokens :=
  logs_program h c

end

/-- **The parser stays inside its tokens and comes to an end.** Tokens that close with the end of
the input, whatever they are otherwise, are read as a program up to the first end of the input among
them, or one of them is to blame: it was not expected, or it is a number that is no numeral. The
logged parse has the same result. Each call that it makes begins at one of the tokens and does not
go past an end of the input, and if it returns it has read a token, unless it is a call of a block
or of the program. The log has every call that is begun in the parse, with the result of its rule, and
no other. -/
theorem program_inside {tokens : List Token}
    (hlast : tokens.getLast?.map Token.kind = some .endOfInput) :
    ((∃ statements used t more, program tokens = .ok (statements, t :: more) ∧
        tokens = used ++ t :: more ∧ t.kind = .endOfInput ∧ ∀ u ∈ used, u.kind ≠ .endOfInput) ∨
      ∃ e, program tokens = .error e ∧ e.Blames tokens) ∧
    (Logged.program tokens).result = program tokens ∧
    (∀ c ∈ (Logged.program tokens).calls, c.Inside tokens) ∧
    ∀ c, c ∈ (Logged.program tokens).calls ↔
      Begun (.program, tokens) (c.rule, c.tokens) ∧ c.result = c.rule.result c.tokens := by
  have hruns := runs_program (hasEnd_of_getLast? hlast)
  refine ⟨?_, hruns.result_eq, hruns.inside, fun c => mem_calls_iff (hasEnd_of_getLast? hlast)⟩
  cases hprogram : program tokens with
  | error e => exact .inr ⟨e, rfl, hruns.advances.error hprogram⟩
  | ok read =>
    obtain ⟨statements, rest⟩ := read
    obtain ⟨used, htokens, -, hused⟩ := hruns.advances.ok hprogram
    have hwith : programWith (fuelFor tokens) tokens = .ok (statements, rest) := hprogram
    obtain ⟨-, t, more, rfl, ht⟩ := programWith_spec hwith
    exact .inl ⟨statements, used, t, more, rfl, htokens, ht, hused⟩

/-- An assignment, with more behind the first end of the input. -/
theorem program_inside_assignment : ∃ tokens,
    tokens.map Token.content = [(.name, "x"), (.assign, "="), (.number, "1"), (.endOfInput, ""),
      (.closeParen, ")"), (.endOfInput, "")] ∧
    (program tokens).map Prod.snd = .ok (tokens.drop 3) ∧
    (Logged.program tokens).calls.map (fun c => (c.rule, c.tokens.length)) =
      [(.variable, 6), (.assignment, 6), (.statement, 6), (.block, 6), (.program, 6)] ∧
    ∀ c ∈ (Logged.program tokens).calls, c.Inside tokens := by
  refine ⟨[⟨.name, "x", ⟨1, 1⟩⟩, ⟨.assign, "=", ⟨1, 3⟩⟩, ⟨.number, "1", ⟨1, 5⟩⟩,
    ⟨.endOfInput, "", ⟨1, 6⟩⟩, ⟨.closeParen, ")", ⟨7, 1⟩⟩, ⟨.endOfInput, "", ⟨1, 1⟩⟩],
    rfl, rfl, rfl, ?_⟩
  exact (program_inside rfl).2.2.1

end TapeCompiler.Grammar
