import TapeCompiler.Proofs.Source.Settled
/-!
# What a rule reads

Every rule of the grammar reads spellings of the tree that it gives back, and what it makes of its
tokens is settled by those up to where it stops (`settled_blockWith` and the like). So parsed tokens
begin with a spelling of their program (`spelled_of_parseTokens`), and tokens that are not parsed
because of one of them begin a spelling up to that one, and no program can begin as they do
(`rejected_of_parseTokens`).
-/
namespace TapeCompiler.Grammar

open TapeCompiler.Spelling

variable {α : Type}

/-! ## Rules without blocks -/

/-- A rule that reads one token looks at its content only. -/
theorem settled_token {L : α → Language Token} {rule : Rule α} (hviable : Viable L [])
    (hnil : rule [] = .error .pastEnd)
    (h : ∀ t, (∃ a, [t] ∈ L a ∧ ∀ u us, u.content = t.content → rule (u :: us) = .ok (a, us)) ∨
      ∃ error : Token → Error, (∀ e u, error t = .unexpected e u → u = t) ∧
        ∀ u us, u.content = t.content → rule (u :: us) = .error (error u)) (tokens : List Token) :
    Settled 1 L tokens (rule tokens) fun _ => rule := by
  cases tokens with
  | nil =>
    rw [hnil]
    exact .fails (viable_of_one hviable) (by simp)
  | cons t more =>
    rcases h t with ⟨a, ht, hrule⟩ | ⟨error, herror, hrule⟩
    · rw [hrule t more rfl]
      refine .step ht (.pure fun read hread => ?_)
        fun {fuel u us x} hu hx => ⟨fuel, by rw [← hx, hrule u us hu]⟩
      rwa [one_mul] at hread
    · rw [hrule t more rfl]
      cases herror' : error t with
      | unexpected e u =>
        obtain rfl := herror e u herror'
        exact .reject (viable_of_one hviable) fun hu hx => by rw [hrule _ _ hu] at hx; cases hx
      | unreadableNumeral | unterminated | pastEnd | outOfFuel =>
        exact .fails (viable_of_one hviable) (by simp)

theorem settled_keyword (word : String) (tokens : List Token) :
    Settled 1 (fun _ => ofWord word) tokens (keyword word tokens) fun _ => keyword word := by
  have hviable : Viable (fun _ : Unit => ofWord word) [] :=
    ⟨[⟨.name, word, .start⟩], (), _, rfl, by simp [isKeyword]⟩
  refine settled_token hviable rfl (fun t => ?_) tokens
  by_cases h : isKeyword word t = true
  · exact .inl ⟨(), ⟨t, rfl, h⟩, fun u us hu => if_pos (isKeyword_congr hu word ▸ h)⟩
  · exact .inr ⟨.unexpected (.keyword word), by simp +contextual,
      fun u us hu => if_neg (isKeyword_congr hu word ▸ h)⟩

theorem settled_variableName (tokens : List Token) :
    Settled 1 ofVariable tokens (variableName tokens) fun _ => variableName := by
  have hviable : Viable ofVariable [] :=
    ⟨[⟨.name, "x", .start⟩], "x", _, rfl, rfl, rfl, by decide⟩
  refine settled_token hviable rfl (fun t => ?_) tokens
  by_cases hkind : t.kind = .name
  · by_cases htext : t.text ∈ reservedWords
    · refine .inr ⟨.unexpected (.variableNotWord t.text), by simp +contextual, fun u us hu => ?_⟩
      obtain ⟨hukind, hutext⟩ := content_eq.1 hu
      rw [variableName, hukind, hutext, if_neg (not_not.2 hkind), if_pos htext]
    · refine .inl ⟨t.text, ⟨t, rfl, hkind, rfl, htext⟩, fun u us hu => ?_⟩
      obtain ⟨hukind, hutext⟩ := content_eq.1 hu
      rw [variableName, hukind, hutext, if_neg (not_not.2 hkind), if_neg htext]
  · refine .inr ⟨.unexpected .variableName, by simp +contextual, fun u us hu => ?_⟩
    rw [variableName, (content_eq.1 hu).1, if_pos hkind]

theorem settled_comparisonSign (tokens : List Token) :
    Settled 1 ofTest tokens (comparisonSign tokens) fun _ => comparisonSign := by
  have hviable : Viable ofTest [] :=
    ⟨[⟨.equal, "==", .start⟩], .equal, _, rfl, rfl⟩
  refine settled_token hviable rfl (fun t => ?_) tokens
  by_cases hequal : t.kind = .equal
  · refine .inl ⟨.equal, ⟨t, rfl, hequal⟩, fun u us hu => ?_⟩
    rw [comparisonSign, (content_eq.1 hu).1, hequal]
  · by_cases hnot : t.kind = .notEqual
    · refine .inl ⟨.notEqual, ⟨t, rfl, hnot⟩, fun u us hu => ?_⟩
      rw [comparisonSign, (content_eq.1 hu).1, hnot]
    · refine .inr ⟨.unexpected .comparisonSign, by simp +contextual, fun u us hu => ?_⟩
      rw [comparisonSign, (content_eq.1 hu).1]
      split
      · next h => exact absurd h hequal
      · next h => exact absurd h hnot
      · rfl

theorem number_of_ok {t : Token} (hkind : t.kind = .number) {n : Int}
    (hread : Text.readInteger t.text = .ok n) (rest : List Token) :
    number (t :: rest) = .ok (n, rest) := by
  refine bind_eq_ok.2 ⟨(t, rest), if_pos hkind, ?_⟩
  simp only [hread]

theorem number_of_error {t : Token} (hkind : t.kind = .number) {e : Text.NumeralError}
    (hread : Text.readInteger t.text = .error e) (rest : List Token) :
    number (t :: rest) = .error (.unreadableNumeral e) := by
  refine bind_eq_error.2 (.inr ⟨(t, rest), if_pos hkind, ?_⟩)
  simp only [hread]

theorem number_of_not_number {t : Token} (hkind : t.kind ≠ .number) (rest : List Token) :
    number (t :: rest) = .error (.unexpected .number t) :=
  bind_eq_error.2 (.inl (if_neg hkind))

theorem settled_number (tokens : List Token) :
    Settled 1 ofNumber tokens (number tokens) fun _ => number := by
  have hviable : Viable ofNumber [] :=
    ⟨[⟨.number, "0", .start⟩], 0, _, rfl, rfl, rfl⟩
  refine settled_token hviable rfl (fun t => ?_) tokens
  by_cases hkind : t.kind = .number
  · have hcontent : ∀ u : Token, u.content = t.content → u.kind = .number ∧ u.text = t.text :=
      fun u hu => (content_eq.1 hu).imp_left fun h => h.trans hkind
    cases hread : Text.readInteger t.text with
    | ok n =>
      refine .inl ⟨n, ⟨t, rfl, hkind, hread⟩, fun u us hu => ?_⟩
      obtain ⟨hukind, hutext⟩ := hcontent u hu
      exact number_of_ok hukind (hutext ▸ hread) us
    | error e =>
      refine .inr ⟨fun _ => .unreadableNumeral e, by simp, fun u us hu => ?_⟩
      obtain ⟨hukind, hutext⟩ := hcontent u hu
      exact number_of_error hukind (hutext ▸ hread) us
  · refine .inr ⟨.unexpected .number, by simp +contextual, fun u us hu => ?_⟩
    exact number_of_not_number ((content_eq.1 hu).1 ▸ hkind) us

theorem settled_comparison (tokens : List Token) :
    Settled 1 Comparison.spellings tokens (comparison tokens) fun _ => comparison :=
  .bind (settled_variableName tokens) fun name rest =>
    .bind (settled_comparisonSign rest) fun test rest =>
      .bind (settled_number rest) fun value _ => .pure fun read hread => by
        rwa [one_mul] at hread

theorem viable_condition : Viable Condition.spellings [] := by
  obtain ⟨ts, c, hc⟩ := (settled_comparison []).viable [] rfl
  exact ⟨ts, [c], hc⟩

def conditionTailWith (fuel : Nat) (first : Comparison) : Rule Condition
  | [] => .error .pastEnd
  | t :: more =>
    if t.kind = .and then
      conditionWith fuel more >>= fun (others, rest) => .ok (first :: others, rest)
    else .ok ([first], t :: more)

theorem conditionWith_eq (fuel : Nat) (tokens : List Token) :
    conditionWith (fuel + 1) tokens =
      comparison tokens >>= fun (first, rest) => conditionTailWith fuel first rest := by
  rfl

theorem settled_conditionTailWith {fuel : Nat} {first : Comparison} {before : Language Token}
    (hothers : ∀ tokens, Settled 1 Condition.spellings tokens (conditionWith fuel tokens)
      conditionWith)
    (hbefore : ∀ read ∈ before, read ∈ first.spellings) (tokens : List Token) :
    Settled before Condition.spellings tokens (conditionTailWith fuel first tokens)
      fun fuel => conditionTailWith fuel first := by
  cases tokens with
  | nil =>
    refine .fails (fun read hread => ⟨[], [first], ?_⟩) (by simp)
    rw [List.append_nil]
    exact hbefore read hread
  | cons t more =>
    rw [conditionTailWith]
    split
    · next hand =>
      have ht : [t] ∈ ofKind .and := ⟨t, rfl, hand⟩
      have htail : Settled (before * ofKind .and) Condition.spellings more
          (conditionWith fuel more >>= fun (others, rest) => .ok (first :: others, rest))
          fun fuel us => conditionWith fuel us >>= fun (others, rest) =>
            .ok (first :: others, rest) := by
        refine .bind (hothers more) fun others rest => .pure ?_
        rintro _ ⟨_, ⟨read, hread, sign, hsign, rfl⟩, used, hused, rfl⟩
        cases others with
        | nil => exact absurd hused (Language.notMem_zero used)
        | cons second others =>
          exact Language.append_mem_mul
            (Language.append_mem_mul (hbefore read hread) hsign) hused
      refine .step ht htail fun {fuel u us x} hu hx => ⟨fuel, ?_⟩
      rwa [conditionTailWith, if_pos ((content_eq.1 hu).1.trans hand)] at hx
    · next hand =>
      have hfirst : ∀ read ∈ before, read ∈ Condition.spellings [first] := hbefore
      refine (Settled.pure hfirst).of_head fun {fuel u us x} hu hx => ⟨fuel, ?_⟩
      rwa [conditionTailWith, if_neg ((content_eq.1 hu).1 ▸ hand)] at hx

theorem settled_conditionWith (fuel : Nat) (tokens : List Token) :
    Settled 1 Condition.spellings tokens (conditionWith fuel tokens) conditionWith := by
  induction fuel generalizing tokens with
  | zero => exact .fails (viable_of_one viable_condition) (by simp)
  | succ fuel ih =>
    refine .succ ?_ (by simp [conditionWith])
    refine .bind (settled_comparison tokens) fun first rest => settled_conditionTailWith ih ?_ rest
    rw [one_mul]
    exact fun _ => id

theorem settled_condition (tokens : List Token) :
    Settled 1 Condition.spellings tokens (condition tokens) fun _ => condition :=
  (settled_conditionWith (tokens.length + 1) tokens).of_again fun _ hx => ⟨_, hx⟩

theorem settled_assignment (tokens : List Token) :
    Settled 1 Statement.spellings tokens (assignment tokens) fun _ => assignment :=
  .bind (settled_variableName tokens) fun name rest =>
    .expect (fun _ rest => .bind (settled_number rest) fun value _ => .pure fun read hread => by
      rwa [one_mul] at hread) fun _ _ _ _ => rfl

theorem isKeyword_iff {word : String} {t : Token} :
    isKeyword word t = true ↔ t.kind = .name ∧ t.text = word := by
  simp [isKeyword]

theorem eq_of_isKeyword {word : String} {t : Token} (h : isKeyword word t = true) :
    t = ⟨.name, word, t.position⟩ := by
  obtain ⟨hkind, htext⟩ := isKeyword_iff.1 h
  rw [← hkind, ← htext]

theorem settled_transfer {t : Token} (h : isKeyword "input" t = true ∨ isKeyword "output" t = true)
    (rest : List Token) :
    Settled 1 Statement.spellings (t :: rest) (transfer (t :: rest)) fun _ => transfer := by
  have htext : t.text = "input" ∨ t.text = "output" :=
    h.imp (fun h => (isKeyword_iff.1 h).2) fun h => (isKeyword_iff.1 h).2
  have hkind : t.kind = .name :=
    h.elim (fun h => (isKeyword_iff.1 h).1) fun h => (isKeyword_iff.1 h).1
  have ht : [t] ∈ ofWord t.text := ⟨t, rfl, isKeyword_iff.2 ⟨hkind, rfl⟩⟩
  have hrest : Settled (1 * ofWord t.text) Statement.spellings rest (transfer (t :: rest))
      fun _ us => transfer (t :: us) := by
    refine .expect (fun _ rest => .bind (settled_variableName rest) fun name rest =>
      .expect (fun _ rest => .pure fun read hread => ?_) fun _ _ _ _ => rfl) fun _ _ _ _ => rfl
    rw [one_mul] at hread
    rcases htext with htext | htext
    · rw [htext] at hread ⊢
      exact hread
    · rw [htext] at hread ⊢
      exact hread
  refine .step ht hrest fun {fuel u us x} hu hx => ⟨fuel, ?_⟩
  simpa only [transfer, (content_eq.1 hu).2] using hx

/-! ## Rules with blocks -/

section

variable {fuel : Nat} {t : Token} {more : List Token}

theorem statementWith_of_not_name (h : t.kind ≠ .name) :
    statementWith (fuel + 1) (t :: more) = .error (.unexpected .statement t) := by
  rw [statementWith, if_pos h]

theorem statementWith_if (h : isKeyword "if" t = true) :
    statementWith (fuel + 1) (t :: more) = branchWith fuel (t :: more) := by
  rw [eq_of_isKeyword h]
  rfl

theorem statementWith_while (h : isKeyword "while" t = true) :
    statementWith (fuel + 1) (t :: more) = loopWith fuel (t :: more) := by
  rw [eq_of_isKeyword h]
  rfl

theorem statementWith_move {direction : Direction} (h : isKeyword direction.word t = true) :
    statementWith (fuel + 1) (t :: more) = .ok (.move direction, more) := by
  rw [eq_of_isKeyword h]
  cases direction <;> rfl

theorem statementWith_transfer (h : isKeyword "input" t = true ∨ isKeyword "output" t = true) :
    statementWith (fuel + 1) (t :: more) = transfer (t :: more) := by
  rcases h with h | h
  · rw [eq_of_isKeyword h]
    rfl
  · rw [eq_of_isKeyword h]
    rfl

theorem statementWith_else (h : isKeyword "else" t = true) :
    statementWith (fuel + 1) (t :: more) = .error (.unexpected .statementNotElse t) := by
  rw [eq_of_isKeyword h]
  rfl

theorem statementWith_of_not_reserved (hkind : t.kind = .name) (h : t.text ∉ reservedWords) :
    statementWith (fuel + 1) (t :: more) = assignment (t :: more) := by
  simp only [reservedWords, List.mem_cons, List.not_mem_nil, or_false, not_or] at h
  rw [statementWith, if_neg (not_not.2 hkind)]
  split <;> first | rfl | simp_all

/-- The first token of a statement tells which statement it is. -/
theorem statement_cases (t : Token) : t.kind ≠ .name ∨ isKeyword "if" t = true ∨
    isKeyword "while" t = true ∨ (∃ direction : Direction, isKeyword direction.word t = true) ∨
    (isKeyword "input" t = true ∨ isKeyword "output" t = true) ∨ isKeyword "else" t = true ∨
    t.kind = .name ∧ t.text ∉ reservedWords := by
  by_cases hkind : t.kind = .name
  · by_cases h : t.text ∈ reservedWords
    · simp only [isKeyword_iff, hkind, true_and]
      simp only [reservedWords, List.mem_cons, List.not_mem_nil, or_false] at h
      rcases h with h | h | h | h | h | h | h
      · exact .inr (.inl h)
      · exact .inr (.inr (.inr (.inr (.inr (.inl h)))))
      · exact .inr (.inr (.inl h))
      · exact .inr (.inr (.inr (.inl ⟨.right, h⟩)))
      · exact .inr (.inr (.inr (.inl ⟨.left, h⟩)))
      · exact .inr (.inr (.inr (.inr (.inl (.inl h)))))
      · exact .inr (.inr (.inr (.inr (.inl (.inr h)))))
    · simp [hkind, h]
  · exact .inl hkind

end

/-- A branch and nothing else. -/
def branchSpellings (statement : Statement) : Language Token :=
  {ts | ts ∈ statement.spellings ∧ Block.isBranch [statement] = true}

theorem viable_braced : Viable (fun block => Spelling.braced (Block.spellings block)) [] :=
  ⟨[⟨.openBrace, "", .start⟩, ⟨.closeBrace, "", .start⟩], [],
    [⟨.openBrace, "", .start⟩], ⟨_, ⟨_, rfl, rfl⟩, [], rfl, rfl⟩, _, ⟨_, rfl, rfl⟩, rfl⟩

theorem viable_statement : Viable Statement.spellings [] :=
  ⟨[⟨.name, "move_right", .start⟩], .move .right, _, rfl, rfl⟩

theorem viable_branch : Viable branchSpellings [] := by
  obtain ⟨used, condition, hcondition⟩ := viable_condition
  obtain ⟨more, body, hbody⟩ := viable_braced
  have hword : [⟨.name, "if", .start⟩] ∈ ofWord "if" := ⟨_, rfl, rfl⟩
  have hmem := Language.append_mem_mul (Language.append_mem_mul hword hcondition) hbody
  exact ⟨[⟨.name, "if", .start⟩] ++ used ++ more, .branch condition body, hmem, rfl⟩

def otherwiseWith (fuel : Nat) (condition : Condition) (body : Block) (tokens : List Token) :
    Except Error (Statement × List Token) :=
  match tokens with
  | [] => .error .pastEnd
  | t :: _ =>
    if isKeyword "if" t then
      branchWith fuel tokens >>= fun (nested, rest) =>
        .ok (.branchElse condition body [nested], rest)
    else
      bracedWith fuel tokens >>= fun (otherwise, rest) =>
        .ok (.branchElse condition body otherwise, rest)

def branchTailWith (fuel : Nat) (condition : Condition) (body : Block) : Rule Statement
  | [] => .error .pastEnd
  | t :: more =>
    if isKeyword "else" t then otherwiseWith fuel condition body more
    else .ok (.branch condition body, t :: more)

theorem branchWith_eq (fuel : Nat) (tokens : List Token) :
    branchWith (fuel + 1) tokens = keyword "if" tokens >>= fun (_, rest) =>
      condition rest >>= fun (cond, rest) =>
        bracedWith fuel rest >>= fun (body, rest) => branchTailWith fuel cond body rest := by
  rfl

section

variable {fuel : Nat} {condition : Condition} {body : Block} {before : Language Token}

theorem settled_otherwiseWith
    (hbranch : ∀ tokens, Settled 1 branchSpellings tokens (branchWith fuel tokens) branchWith)
    (hbraced : ∀ tokens, Settled 1 (fun block => Spelling.braced (Block.spellings block)) tokens
      (bracedWith fuel tokens) bracedWith)
    (hbefore : ∀ read ∈ before, read ∈
      ofWord "if" * condition.spellings * Spelling.braced (Block.spellings body) * ofWord "else")
    (tokens : List Token) :
    Settled before branchSpellings tokens (otherwiseWith fuel condition body tokens)
      fun fuel => otherwiseWith fuel condition body := by
  cases tokens with
  | nil =>
    refine .fails (fun read hread => ?_) (by simp)
    obtain ⟨more, otherwise, hmore⟩ := viable_braced
    exact ⟨more, .branchElse condition body otherwise,
      Language.append_mem_mul (hbefore read hread) (.inl hmore), rfl⟩
  | cons t more =>
    rw [otherwiseWith]
    split
    · next hif =>
      have hnested : Settled before branchSpellings (t :: more)
          (branchWith fuel (t :: more) >>= fun (nested, rest) =>
            .ok (.branchElse condition body [nested], rest))
          fun fuel us => branchWith fuel us >>= fun (nested, rest) =>
            .ok (.branchElse condition body [nested], rest) := by
        refine .bind (hbranch _) fun nested rest => .pure ?_
        rintro _ ⟨read, hread, used, ⟨hused, hisBranch⟩, rfl⟩
        refine ⟨Language.append_mem_mul (hbefore read hread) (.inr ?_), rfl⟩
        rw [if_pos hisBranch, Block.spellings, Block.spellings, mul_one]
        exact hused
      refine hnested.of_head fun {fuel u us x} hu hx => ⟨fuel, ?_⟩
      rwa [otherwiseWith, if_pos (isKeyword_congr hu "if" ▸ hif)] at hx
    · next hif =>
      have hotherwise : Settled before branchSpellings (t :: more)
          (bracedWith fuel (t :: more) >>= fun (otherwise, rest) =>
            .ok (.branchElse condition body otherwise, rest))
          fun fuel us => bracedWith fuel us >>= fun (otherwise, rest) =>
            .ok (.branchElse condition body otherwise, rest) := by
        refine .bind (hbraced _) fun otherwise rest => .pure ?_
        rintro _ ⟨read, hread, used, hused, rfl⟩
        exact ⟨Language.append_mem_mul (hbefore read hread) (.inl hused), rfl⟩
      refine hotherwise.of_head fun {fuel u us x} hu hx => ⟨fuel, ?_⟩
      rwa [otherwiseWith, if_neg (isKeyword_congr hu "if" ▸ hif)] at hx

theorem settled_branchTailWith
    (hbranch : ∀ tokens, Settled 1 branchSpellings tokens (branchWith fuel tokens) branchWith)
    (hbraced : ∀ tokens, Settled 1 (fun block => Spelling.braced (Block.spellings block)) tokens
      (bracedWith fuel tokens) bracedWith)
    (hbefore : ∀ read ∈ before, read ∈
      ofWord "if" * condition.spellings * Spelling.braced (Block.spellings body))
    (tokens : List Token) :
    Settled before branchSpellings tokens (branchTailWith fuel condition body tokens)
      fun fuel => branchTailWith fuel condition body := by
  cases tokens with
  | nil =>
    refine .fails (fun read hread => ⟨[], .branch condition body, ?_, rfl⟩) (by simp)
    rw [List.append_nil]
    exact hbefore read hread
  | cons t more =>
    rw [branchTailWith]
    split
    · next helse =>
      have ht : [t] ∈ ofWord "else" := ⟨t, rfl, helse⟩
      refine .step ht (settled_otherwiseWith hbranch hbraced ?_ more)
        fun {fuel u us x} hu hx => ⟨fuel, ?_⟩
      · rintro _ ⟨read, hread, used, hused, rfl⟩
        exact Language.append_mem_mul (hbefore read hread) hused
      · rwa [branchTailWith, if_pos (isKeyword_congr hu "else" ▸ helse)] at hx
    · next helse =>
      have hbranch : ∀ read ∈ before, read ∈ branchSpellings (.branch condition body) :=
        fun read hread => ⟨hbefore read hread, rfl⟩
      refine (Settled.pure hbranch).of_head fun {fuel u us x} hu hx => ⟨fuel, ?_⟩
      rwa [branchTailWith, if_neg (isKeyword_congr hu "else" ▸ helse)] at hx

end

mutual

theorem settled_blockWith : ∀ (fuel : Nat) (tokens : List Token),
    Settled 1 Block.spellings tokens (blockWith fuel tokens) blockWith
  | 0, _ | _ + 1, [] => .fails (viable_of_one ⟨[], [], rfl⟩) (by simp)
  | fuel + 1, t :: more => by
    refine .succ ?_ (by simp [blockWith])
    rw [blockWith]
    split
    · next hend =>
      have hempty : ∀ read ∈ (1 : Language Token), read ∈ Block.spellings [] := fun _ => id
      refine (Settled.pure hempty).of_head fun {fuel u us x} hu hx => ⟨fuel, ?_⟩
      rwa [blockWith, if_pos ((content_eq.1 hu).1 ▸ hend)] at hx
    · next hend =>
      have hblock : Settled 1 Block.spellings (t :: more)
          (statementWith fuel (t :: more) >>= fun (first, rest) =>
            blockWith fuel rest >>= fun (others, rest) => .ok (first :: others, rest))
          fun fuel us => statementWith fuel us >>= fun (first, rest) =>
            blockWith fuel rest >>= fun (others, rest) => .ok (first :: others, rest) :=
        .bind (settled_statementWith fuel _) fun first rest =>
          .bind (settled_blockWith fuel rest) fun others rest => .pure fun read hread => by
            rwa [one_mul] at hread
      refine hblock.of_head fun {fuel u us x} hu hx => ⟨fuel, ?_⟩
      rwa [blockWith, if_neg ((content_eq.1 hu).1 ▸ hend)] at hx

theorem settled_bracedWith : ∀ (fuel : Nat) (tokens : List Token),
    Settled 1 (fun block => Spelling.braced (Block.spellings block)) tokens
      (bracedWith fuel tokens) bracedWith
  | 0, _ => .fails (viable_of_one viable_braced) (by simp)
  | fuel + 1, tokens => by
    refine .succ ?_ (by simp [bracedWith])
    refine .expect (fun _ rest => .bind (settled_blockWith fuel rest) fun body rest =>
      .expect (fun _ rest => .pure fun read hread => ?_) fun _ _ _ _ => rfl) fun _ _ _ _ => rfl
    rwa [one_mul] at hread

theorem settled_statementWith : ∀ (fuel : Nat) (tokens : List Token),
    Settled 1 Statement.spellings tokens (statementWith fuel tokens) statementWith
  | 0, _ | _ + 1, [] => .fails (viable_of_one viable_statement) (by simp)
  | fuel + 1, t :: more => by
    refine .succ ?_ (by simp [statementWith])
    rcases statement_cases t with h | h | h | ⟨direction, h⟩ | h | h | ⟨hkind, h⟩
    · rw [statementWith_of_not_name h]
      refine .reject (viable_of_one viable_statement) fun {fuel u us x} hu hx => ?_
      rw [statementWith_of_not_name ((content_eq.1 hu).1 ▸ h)] at hx
      cases hx
    · rw [statementWith_if h]
      refine ((settled_branchWith fuel _).mono fun _ _ => And.left).of_head
        fun {fuel u us x} hu hx => ⟨fuel, ?_⟩
      rwa [statementWith_if (isKeyword_congr hu _ ▸ h)] at hx
    · rw [statementWith_while h]
      refine (settled_loopWith fuel _).of_head fun {fuel u us x} hu hx => ⟨fuel, ?_⟩
      rwa [statementWith_while (isKeyword_congr hu _ ▸ h)] at hx
    · rw [statementWith_move h]
      have hmove : ∀ read ∈ 1 * ofWord direction.word,
          read ∈ Statement.spellings (.move direction) := by
        rw [one_mul]
        exact fun _ => id
      have ht : [t] ∈ ofWord direction.word := ⟨t, rfl, h⟩
      refine .step ht (.pure hmove) fun {fuel u us x} hu hx => ⟨fuel, ?_⟩
      rwa [statementWith_move (isKeyword_congr hu _ ▸ h)] at hx
    · rw [statementWith_transfer h]
      refine (settled_transfer h more).of_head fun {fuel u us x} hu hx => ⟨fuel, ?_⟩
      rwa [statementWith_transfer
        (isKeyword_congr hu "input" ▸ isKeyword_congr hu "output" ▸ h)] at hx
    · rw [statementWith_else h]
      refine .reject (viable_of_one viable_statement) fun {fuel u us x} hu hx => ?_
      rw [statementWith_else (isKeyword_congr hu _ ▸ h)] at hx
      cases hx
    · rw [statementWith_of_not_reserved hkind h]
      refine (settled_assignment _).of_head fun {fuel u us x} hu hx => ⟨fuel, ?_⟩
      obtain ⟨hukind, hutext⟩ := content_eq.1 hu
      rwa [statementWith_of_not_reserved (hukind.trans hkind) (hutext ▸ h)] at hx

theorem settled_branchWith : ∀ (fuel : Nat) (tokens : List Token),
    Settled 1 branchSpellings tokens (branchWith fuel tokens) branchWith
  | 0, _ => .fails (viable_of_one viable_branch) (by simp)
  | fuel + 1, tokens => by
    refine .succ ?_ (by simp [branchWith])
    refine .bind (settled_keyword "if" tokens) fun _ rest =>
      .bind (settled_condition rest) fun condition rest =>
        .bind (settled_bracedWith fuel rest) fun body rest => ?_
    refine settled_branchTailWith (settled_branchWith fuel) (settled_bracedWith fuel) ?_ rest
    rw [one_mul]
    exact fun _ => id

theorem settled_loopWith : ∀ (fuel : Nat) (tokens : List Token),
    Settled 1 Statement.spellings tokens (loopWith fuel tokens) loopWith
  | 0, _ => .fails (viable_of_one viable_statement) (by simp)
  | fuel + 1, tokens => by
    refine .succ ?_ (by simp [loopWith])
    refine .bind (settled_keyword "while" tokens) fun _ rest =>
      .bind (settled_condition rest) fun condition rest =>
        .bind (settled_bracedWith fuel rest) fun body rest => .pure fun read hread => ?_
    rwa [one_mul] at hread

end

/-! ## Programs -/

/-- `program` with a bound on the depth of the calls. -/
def programWith (fuel : Nat) (tokens : List Token) : Except Error (Block × List Token) := do
  let (statements, rest) ← blockWith fuel tokens
  match rest with
  | [] => .error .pastEnd
  | t :: more =>
    if t.kind = .endOfInput then .ok (statements, t :: more)
    else .error (.unexpected .statementOrEnd t)

theorem settled_programWith (fuel : Nat) (tokens : List Token) :
    Settled 1 Block.spellings tokens (programWith fuel tokens) programWith := by
  refine .bind (settled_blockWith fuel tokens) fun statements rest => ?_
  have hblock : ∀ read ∈ 1 * Block.spellings statements, read ∈ Block.spellings statements := by
    rw [one_mul]
    exact fun _ => id
  have hviable : ∀ read ∈ 1 * Block.spellings statements, Viable Block.spellings read :=
    fun read hread => ⟨[], statements, (List.append_nil read).symm ▸ hblock read hread⟩
  cases rest with
  | nil => exact .fails hviable (by simp)
  | cons t more =>
    by_cases hend : t.kind = .endOfInput
    · simp only [hend, if_true]
      refine (Settled.pure hblock).of_head fun {fuel u us x} hu hx => ⟨fuel, ?_⟩
      simpa only [(content_eq.1 hu).1, hend, if_true] using hx
    · simp only [hend, if_false]
      refine .reject hviable fun {fuel u us x} hu hx => ?_
      simp only [(content_eq.1 hu).1, hend, if_false] at hx
      cases hx

/-- A program is a block before the end of the input. -/
theorem programWith_spec {fuel : Nat} {tokens rest : List Token} {program : Block}
    (h : programWith fuel tokens = .ok (program, rest)) :
    blockWith fuel tokens = .ok (program, rest) ∧
      ∃ t more, rest = t :: more ∧ t.kind = .endOfInput := by
  obtain ⟨⟨statements, after⟩, hblock, hend⟩ := bind_eq_ok.1 h
  cases after with
  | nil => cases hend
  | cons t more =>
    simp only at hend
    split at hend
    · next hkind =>
      cases hend
      exact ⟨hblock, t, more, rfl, hkind⟩
    · cases hend

theorem programWith_eq_ok {fuel : Nat} {tokens rest : List Token} {program : Block}
    (h : programWith fuel tokens = .ok (program, rest)) :
    ∃ used ∈ programSpellings program, ∃ more, tokens = used ++ more := by
  obtain ⟨hblock, t, more, rfl, hkind⟩ := programWith_spec h
  obtain ⟨used, rfl, hused, -⟩ := (settled_blockWith fuel tokens).ok hblock
  have ht : [t] ∈ ofKind .endOfInput := ⟨t, rfl, hkind⟩
  exact ⟨used ++ [t], Language.append_mem_mul (hused [] rfl) ht, more, by simp⟩

theorem parseTokens_eq_ok {tokens : List Token} {program : Block}
    (h : parseTokens tokens = .ok program) :
    ∃ rest, programWith (fuelFor tokens) tokens = .ok (program, rest) := by
  rw [parseTokens] at h
  split at h
  · obtain ⟨⟨_, rest⟩, hprogram, rfl⟩ := map_eq_ok.1 h
    exact ⟨rest, hprogram⟩
  · cases h

/-- Tokens that are parsed begin with a spelling of the program. -/
theorem spelled_of_parseTokens {tokens : List Token} {program : Block}
    (h : parseTokens tokens = .ok program) :
    ∃ used ∈ programSpellings program, ∃ more, tokens = used ++ more := by
  obtain ⟨rest, hprogram⟩ := parseTokens_eq_ok h
  exact programWith_eq_ok hprogram

/-- Tokens that are not parsed because of one of them begin a spelling up to that one. With that one
they begin no tokens that are parsed. -/
theorem rejected_of_parseTokens {tokens : List Token} {e : Expectation} {t : Token}
    (h : parseTokens tokens = .error (.unexpected e t)) :
    ∃ used rest, tokens = used ++ t :: rest ∧ Viable Block.spellings used ∧
      ∀ us u others, us.map Token.content = used.map Token.content → u.content = t.content →
        ∀ program, parseTokens (us ++ u :: others) ≠ .ok program := by
  have hprogram : programWith (fuelFor tokens) tokens = .error (.unexpected e t) := by
    rw [parseTokens] at h
    split at h
    · exact map_eq_error.1 h
    · cases h
  obtain ⟨used, rest, htokens, hviable, hsame⟩ := (settled_programWith _ tokens).error hprogram
  refine ⟨used, rest, htokens, hviable [] rfl, ?_⟩
  intro us u others hus hu program hparse
  obtain ⟨rest', hparse⟩ := parseTokens_eq_ok hparse
  exact hsame hus hu hparse

end TapeCompiler.Grammar
