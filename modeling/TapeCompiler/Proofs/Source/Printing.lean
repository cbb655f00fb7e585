import TapeCompiler.Proofs.Correctness
import TapeCompiler.Proofs.Source.Derivation
import TapeCompiler.Proofs.Source.Tokenizing
/-!
# Printing programs

A program is printed statement by statement: the headline of each, and behind it the blocks inside
it in braces, with blanks between them as one likes. Every printed text splits into tokens that
spell the program (`Statement.scans_printings`), so a well-formed program is parsed from whatever is
printed for it; and all that is ever parsed is well-formed (`parse_printed`).
-/
namespace TapeCompiler

open TapeCompiler.Text TapeCompiler.Spelling

/-! ## Printed texts -/

/-- Any number of blanks, none included. -/
def blanks : Language Char := {text | ∀ c ∈ text, isBlank c = true}

/-- Blanks that keep two statements apart. -/
def separators : Language Char := {text | text ≠ [] ∧ ∀ c ∈ text, isBlank c = true}

/-- A block in braces, with the blanks around it. -/
def bracedPrintings (block : Language Char) : Language Char :=
  blanks * {['\x7b']} * blanks * block * blanks * {['\x7d']}

mutual

/-- The texts of a statement. -/
def Statement.printings : Statement → Language Char
  | .input name => {(Statement.input name).headline.toList}
  | .output name => {(Statement.output name).headline.toList}
  | .assign name value => {(Statement.assign name value).headline.toList}
  | .move direction => {(Statement.move direction).headline.toList}
  | .loop condition body =>
    {(Statement.loop condition body).headline.toList} * bracedPrintings (Block.printings body)
  | .branch condition body =>
    {(Statement.branch condition body).headline.toList} * bracedPrintings (Block.printings body)
  | .branchElse condition body otherwise =>
    {(Statement.branchElse condition body otherwise).headline.toList}
      * bracedPrintings (Block.printings body) * blanks * {"else".toList}
      * bracedPrintings (Block.printings otherwise)

/-- The texts of a block, with separators between the statements. -/
def Block.printings : Block → Language Char
  | [] => 1
  | [statement] => statement.printings
  | statement :: next :: rest => statement.printings * separators * Block.printings (next :: rest)

end

/-- The texts of a program. -/
def programPrintings (program : Block) : Language Char :=
  blanks * Block.printings program * blanks

theorem nil_mem_blanks : [] ∈ blanks := fun _ hc => absurd hc List.not_mem_nil

theorem mem_bracedPrintings {L : Language Char} {text : List Char} (h : text ∈ L) :
    '\x7b' :: (text ++ ['\x7d']) ∈ bracedPrintings L := by
  refine ⟨'\x7b' :: text, ⟨'\x7b' :: text, ⟨['\x7b'], ⟨['\x7b'], ?_, [], nil_mem_blanks, rfl⟩,
    text, h, rfl⟩, [], nil_mem_blanks, List.append_nil _⟩, ['\x7d'], rfl, rfl⟩
  exact ⟨[], nil_mem_blanks, ['\x7b'], rfl, rfl⟩

mutual

theorem Statement.exists_printing : ∀ statement : Statement, ∃ text, text ∈ statement.printings
  | .input _ | .output _ | .assign _ _ | .move _ => ⟨_, rfl⟩
  | .loop _ body | .branch _ body => by
    obtain ⟨text, htext⟩ := Block.exists_printing body
    exact ⟨_, Language.append_mem_mul rfl (mem_bracedPrintings htext)⟩
  | .branchElse _ body otherwise => by
    obtain ⟨text, htext⟩ := Block.exists_printing body
    obtain ⟨text', htext'⟩ := Block.exists_printing otherwise
    exact ⟨_, Language.append_mem_mul (Language.append_mem_mul (Language.append_mem_mul
      (Language.append_mem_mul rfl (mem_bracedPrintings htext)) nil_mem_blanks) rfl)
      (mem_bracedPrintings htext')⟩

/-- Every block can be printed. -/
theorem Block.exists_printing : ∀ block : Block, ∃ text, text ∈ Block.printings block
  | [] => ⟨[], rfl⟩
  | [statement] => Statement.exists_printing statement
  | statement :: next :: rest => by
    obtain ⟨text, htext⟩ := Statement.exists_printing statement
    obtain ⟨text', htext'⟩ := Block.exists_printing (next :: rest)
    have hgap : [' '] ∈ separators :=
      ⟨List.cons_ne_nil _ _, List.forall_mem_singleton.2 (by decide)⟩
    exact ⟨_, Language.append_mem_mul (Language.append_mem_mul htext hgap) htext'⟩

end

theorem exists_programPrinting (program : Block) :
    ∃ source : String, source.toList ∈ programPrintings program := by
  obtain ⟨text, htext⟩ := Block.exists_printing program
  refine ⟨String.ofList text, ?_⟩
  have hall := Language.append_mem_mul (Language.append_mem_mul nil_mem_blanks htext) nil_mem_blanks
  simpa [programPrintings] using hall

/-! ## Texts that are scanned on their own -/

/-- A text before which a token ends, whatever the token is. -/
def EndsWord (rest : List Char) : Prop :=
  ∀ c, rest.head? = some c → isBlank c = true ∨ c = '\x7b' ∨ c = '\x7d'

/-- No condition on the text that follows. -/
def Anywhere (_ : List Char) : Prop := True

/-- Before what may follow it, the text splits into tokens of the language on its own. -/
def Scans (follows : List Char → Prop) (text : List Char) (L : Language Token) : Prop :=
  ∀ (before rest : List Char) (tokens : List Token), follows rest →
    Splits (before ++ text) rest tokens → ∃ us ∈ L,
      (∀ t ∈ us, t.kind = .number → t.text.length ≤ digitLimit) ∧
        Splits before (text ++ rest) (us ++ tokens)

section

variable {follows follows' : List Char → Prop} {text text' rest word : List Char}
  {L M : Language Token} {kind other : TokenKind}

theorem EndsWord.nil : EndsWord [] := by
  intro c hc
  cases hc

theorem EndsWord.cons {c : Char} (h : isBlank c = true ∨ c = '\x7b' ∨ c = '\x7d') :
    EndsWord (c :: rest) := by
  rintro d ⟨⟩
  exact h

theorem EndsWord.append (htext : ∀ c ∈ text, isBlank c = true) (h : EndsWord rest) :
    EndsWord (text ++ rest) := by
  cases text with
  | nil => exact h
  | cons c more => exact .cons (.inl (htext c List.mem_cons_self))

theorem Scans.nil : Scans follows [] 1 := by
  intro before rest tokens _ h
  rw [List.append_nil] at h
  exact ⟨[], rfl, by simp, h⟩

theorem Scans.append (h : Scans follows' text L) (h' : Scans follows text' M)
    (hfollows : ∀ rest, follows rest → follows' (text' ++ rest)) :
    Scans follows (text ++ text') (L * M) := by
  intro before rest tokens hrest hsplits
  rw [← List.append_assoc] at hsplits
  obtain ⟨vs, hvs, hvshort, hsplits⟩ := h' _ _ _ hrest hsplits
  obtain ⟨us, hus, hushort, hsplits⟩ := h _ _ _ (hfollows rest hrest) hsplits
  refine ⟨us ++ vs, ⟨us, hus, vs, hvs, rfl⟩, List.forall_mem_append.2 ⟨hushort, hvshort⟩, ?_⟩
  rwa [List.append_assoc, List.append_assoc]

theorem Scans.append_anywhere (h : Scans Anywhere text L) (h' : Scans follows text' M) :
    Scans follows (text ++ text') (L * M) := h.append h' fun _ _ => trivial

theorem Scans.add (h : Scans follows text L) : Scans follows text (L + M) := by
  intro before rest tokens hrest hsplits
  obtain ⟨us, hus, hall⟩ := h before rest tokens hrest hsplits
  exact ⟨us, .inl hus, hall⟩

theorem scans_blanks (h : ∀ c ∈ text, isBlank c = true) : Scans follows text 1 := by
  have hgap : ∀ {text rest : List Char}, (∀ c ∈ text, isBlank c = true) → Gap text rest := by
    intro text rest h
    induction text with
    | nil => exact .nil
    | cons c more ih =>
      rw [List.forall_mem_cons] at h
      exact .blank h.1 (ih h.2)
  intro before rest tokens _ hsplits
  exact ⟨[], rfl, by simp, hsplits.of_gap (hgap h)⟩

theorem EndsWord.parts (h : EndsWord rest) (c : Char) (hc : rest.head? = some c) : Parts c := by
  rcases h c hc with hblank | rfl | rfl
  · exact parts_of_isBlank hblank
  · exact ⟨by decide, by decide⟩
  · exact ⟨by decide, by decide⟩

/-- Before a blank or a brace every match is the longest one. -/
theorem longest_of_endsWord (h : Matches kind word rest) (hrest : EndsWord rest) :
    Longest kind word rest := longest_of_parts h hrest.parts

/-! ## Single tokens -/

theorem scans_token (h : ∀ rest, follows rest → Longest kind word rest)
    (hshort : kind = .number → word.length ≤ digitLimit)
    (hL : ∀ p, [⟨kind, String.ofList word, p⟩] ∈ L) : Scans follows word L := by
  intro before rest tokens hrest hsplits
  refine ⟨_, hL (placeBehind before), ?_, ?_⟩
  · rw [List.forall_mem_singleton, String.length_ofList]
    exact hshort
  · have hall := Splits.token .nil (h rest hrest) (by simpa using hsplits)
    simpa using hall

theorem scans_name {name : String} (h : isName name.toList = true)
    (hL : ∀ t : Token, t.kind = .name → t.text = name → [t] ∈ L) :
    Scans EndsWord name.toList L := by
  refine scans_token (fun rest => longest_of_endsWord (.name h)) (by simp) fun p => hL _ rfl ?_
  exact String.ofList_toList

theorem scans_word {name : String} (h : isName name.toList = true) :
    Scans EndsWord name.toList (ofWord name) :=
  scans_name h fun t hkind htext => ⟨t, rfl, by simp [Grammar.isKeyword, hkind, htext]⟩

theorem scans_variable {name : String} (h : IsVariable name) :
    Scans EndsWord name.toList (ofVariable name) :=
  scans_name h.1 fun t hkind htext => ⟨t, rfl, hkind, htext, h.2⟩

theorem scans_number {n : Int} (h : 0 ≤ n ∧ n ≤ 255) :
    Scans EndsWord (toString n).toList (ofNumber n) := by
  obtain ⟨k, rfl⟩ := Int.eq_ofNat_of_zero_le h.1
  rw [toList_toString_natCast]
  have hvalue : digitsValue (Nat.toDigits 10 k) ≤ 255 := by
    rw [digitsValue_toDigits]
    omega
  have hdigits := isDigits_toDigits k
  have hlength : (Nat.toDigits 10 k).length ≤ digitLimit :=
    Nat.le_trans ((Nat.length_toDigits_le_iff (k := 3) (by decide) (by decide)).2 (by omega))
      (by decide)
  refine scans_token (fun rest hrest => longest_of_endsWord (.number hdigits hvalue ?_) hrest)
    (fun _ => hlength) fun p => ⟨_, rfl, rfl, ?_⟩
  · intro c hc
    exact (hrest.parts c hc).name
  · obtain ⟨hne, hall⟩ := isDigits_spec hdigits
    rw [Scan.readInteger_digits hne hall hlength, digitsValue_toDigits]

theorem scans_sign (h : (kind, word) ∈ signs) : Scans EndsWord word (ofKind kind) := by
  exact scans_token (fun rest => longest_of_endsWord (.sign h))
    (fun he => absurd he (kind_ne_number_of_mem_signs h)) fun p => ⟨_, rfl, rfl⟩

/-- A brace is a token whatever follows it. -/
theorem scans_brace {c : Char} (h : ∀ rest, Scan.lexemeAt c rest = .token kind 1)
    (hkind : kind ≠ .number) : Scans Anywhere [c] (ofKind kind) := by
  refine scans_token (fun rest _ => ?_) (fun he => absurd he hkind) fun p => ⟨_, rfl, rfl⟩
  obtain ⟨word, more, heq, hlength, hlongest⟩ := Scan.longest_of_lexemeAt (h rest)
  have happend : [c] ++ rest = word ++ more := heq
  obtain ⟨rfl, rfl⟩ := List.append_inj happend hlength.symm
  exact hlongest

/-- Two texts with a blank between them. -/
theorem Scans.spaced (h : Scans EndsWord text L) (h' : Scans follows text' M) :
    Scans follows (text ++ ' ' :: text') (L * M) := by
  have hspace : Scans follows ([' '] ++ text') (1 * M) :=
    (scans_blanks (List.forall_mem_singleton.2 (by decide))).append_anywhere h'
  rw [one_mul] at hspace
  exact h.append hspace fun rest _ => .cons (.inl (by decide))

end

/-! ## Headlines -/

theorem Comparison.scans_text {c : Comparison} (h : c.WellFormed) :
    Scans EndsWord c.text.toList c.spellings := by
  have htext : c.text.toList =
      c.name.toList ++ ' ' :: (c.test.sign.toList ++ ' ' :: (toString c.value).toList) := by
    simp [Comparison.text]
  have hsign : Scans EndsWord c.test.sign.toList (ofTest c.test) := by
    cases c.test <;> exact scans_sign (by decide)
  rw [htext, Comparison.spellings, mul_assoc]
  exact (scans_variable h.1).spaced (hsign.spaced (scans_number h.2))

theorem Condition.scans_text : ∀ {condition : Condition}, condition.WellFormed →
    Scans EndsWord condition.text.toList condition.spellings
  | [], h => absurd rfl h.1
  | [c], h => by
    have htext : Condition.text [c] = c.text := by simp [Condition.text]
    rw [htext]
    exact Comparison.scans_text (h.2 c List.mem_cons_self)
  | c :: d :: rest, h => by
    have hrest : Condition.WellFormed (d :: rest) :=
      ⟨List.cons_ne_nil _ _, fun e he => h.2 e (List.mem_cons_of_mem _ he)⟩
    have htext : (Condition.text (c :: d :: rest)).toList =
        c.text.toList ++ ' ' :: (['&', '&'] ++ ' ' :: (Condition.text (d :: rest)).toList) := by
      simp [Condition.text, String.toList_intercalate]
    rw [htext, Condition.spellings, mul_assoc]
    exact (Comparison.scans_text (h.2 c List.mem_cons_self)).spaced
      ((scans_sign (by decide)).spaced (Condition.scans_text hrest))

/-- A word before a condition. -/
theorem scans_headline (word : String) (hword : isName word.toList = true)
    {condition : Condition} (h : condition.WellFormed) :
    Scans EndsWord (word ++ " " ++ condition.text).toList (ofWord word * condition.spellings) := by
  have htext : (word ++ " " ++ condition.text).toList =
      word.toList ++ ' ' :: condition.text.toList := by simp
  rw [htext]
  exact (scans_word hword).spaced (Condition.scans_text h)

/-! ## Statements -/

section

variable {follows : List Char → Prop} {text : List Char} {L : Language Char} {M : Language Token}

/-- A block in braces ends the word before it, whatever follows it. -/
theorem endsWord_braced (h : text ∈ bracedPrintings L) (rest : List Char) :
    EndsWord (text ++ rest) := by
  obtain ⟨_, ⟨_, ⟨_, ⟨_, ⟨before, hbefore, _, rfl, rfl⟩, _, -, rfl⟩, _, -, rfl⟩, _, -, rfl⟩,
    _, -, rfl⟩ := h
  simp only [List.append_assoc]
  exact .append hbefore (.cons (.inr (.inl rfl)))

theorem scans_braced (hbody : ∀ text ∈ L, Scans EndsWord text M) (h : text ∈ bracedPrintings L) :
    Scans Anywhere text (Spelling.braced M) := by
  obtain ⟨_, ⟨_, ⟨_, ⟨_, ⟨before, hbefore, _, rfl, rfl⟩, inside, hinside, rfl⟩, body, hmem, rfl⟩,
    behind, hbehind, rfl⟩, _, rfl, rfl⟩ := h
  have hopen : Scans Anywhere ['\x7b'] (ofKind .openBrace) :=
    scans_brace (fun rest => rfl) (by decide)
  have hclose : Scans Anywhere ['\x7d'] (ofKind .closeBrace) :=
    scans_brace (fun rest => rfl) (by decide)
  have hends : ∀ rest, EndsWord (behind ++ ['\x7d'] ++ rest) := by
    intro rest
    rw [List.append_assoc]
    exact .append hbehind (.cons (.inr (.inr rfl)))
  have hend : Scans Anywhere (behind ++ ['\x7d']) (1 * ofKind .closeBrace) :=
    (scans_blanks hbehind).append_anywhere hclose
  have hinner : Scans Anywhere (body ++ (behind ++ ['\x7d'])) (M * (1 * ofKind .closeBrace)) :=
    (hbody body hmem).append hend fun rest _ => hends rest
  have hall := (scans_blanks hbefore).append_anywhere
    (hopen.append_anywhere ((scans_blanks hinside).append_anywhere hinner))
  simpa [Spelling.braced, mul_assoc] using hall

/-- A text and a block in braces behind it. -/
theorem Scans.append_braced {word : List Char} {N : Language Token} (hword : Scans EndsWord word N)
    (hbody : ∀ text ∈ L, Scans EndsWord text M) (h : text ∈ bracedPrintings L) :
    Scans follows (word ++ text) (N * Spelling.braced M) := by
  have hbraced : Scans follows (text ++ []) (Spelling.braced M * 1) :=
    (scans_braced hbody h).append_anywhere .nil
  rw [List.append_nil, mul_one] at hbraced
  exact hword.append hbraced fun rest _ => endsWord_braced h rest

end

theorem scans_transfer (word : String) {name : String} (hword : isName word.toList = true)
    (h : IsVariable name) : Scans EndsWord (word ++ " ( " ++ name ++ " )").toList
      (ofWord word * ofKind .openParen * ofVariable name * ofKind .closeParen) := by
  have htext : (word ++ " ( " ++ name ++ " )").toList =
      word.toList ++ ' ' :: (['('] ++ ' ' :: (name.toList ++ ' ' :: [')'])) := by simp
  rw [htext, mul_assoc, mul_assoc]
  exact (scans_word hword).spaced ((scans_sign (by decide)).spaced
    ((scans_variable h).spaced (scans_sign (by decide))))

mutual

/-- Every text of a statement splits into tokens that spell it. -/
theorem Statement.scans_printings : ∀ {statement : Statement}, statement.WellFormed →
    ∀ text ∈ statement.printings, Scans EndsWord text statement.spellings
  | .input name, h, text, htext => by
    obtain rfl : text = _ := htext
    exact scans_transfer "input" (by decide) h
  | .output name, h, text, htext => by
    obtain rfl : text = _ := htext
    exact scans_transfer "output" (by decide) h
  | .assign name value, h, text, htext => by
    obtain rfl : text = _ := htext
    have hline : (Statement.assign name value).headline.toList =
        name.toList ++ ' ' :: (['='] ++ ' ' :: (toString value).toList) := by
      simp [Statement.headline]
    rw [hline, Statement.spellings, mul_assoc]
    exact (scans_variable h.1).spaced ((scans_sign (by decide)).spaced (scans_number h.2))
  | .move direction, _, text, htext => by
    obtain rfl : text = _ := htext
    cases direction <;> exact scans_word (by decide)
  | .loop condition body, h, text, htext => by
    obtain ⟨_, rfl, braced, hbraced, rfl⟩ := htext
    exact (scans_headline "while" (by decide) h.1).append_braced (Block.scans_printings h.2) hbraced
  | .branch condition body, h, text, htext => by
    obtain ⟨_, rfl, braced, hbraced, rfl⟩ := htext
    exact (scans_headline "if" (by decide) h.1).append_braced (Block.scans_printings h.2) hbraced
  | .branchElse condition body otherwise, h, text, htext => by
    obtain ⟨_, ⟨_, ⟨_, ⟨_, rfl, braced, hbraced, rfl⟩, gap, hgap, rfl⟩, _, rfl, rfl⟩,
      braced', hbraced', rfl⟩ := htext
    have hfirst : Scans Anywhere _ _ :=
      (scans_headline "if" (by decide) h.1).append_braced (Block.scans_printings h.2.1) hbraced
    have helse : Scans EndsWord (gap ++ "else".toList) (1 * ofWord "else") :=
      (scans_blanks hgap).append_anywhere (scans_word (by decide))
    have hsecond : Scans EndsWord (gap ++ "else".toList ++ braced') _ :=
      helse.append_braced (Block.scans_printings h.2.2) hbraced'
    have hall := hfirst.append_anywhere hsecond
    rw [one_mul, ← mul_assoc] at hall
    show Scans EndsWord
      (("if" ++ " " ++ condition.text).toList ++ braced ++ gap ++ "else".toList ++ braced') _
    rw [Statement.spellings, mul_add]
    refine Scans.add ?_
    simpa only [List.append_assoc] using hall

theorem Block.scans_printings : ∀ {block : Block}, Block.WellFormed block →
    ∀ text ∈ Block.printings block, Scans EndsWord text (Block.spellings block)
  | [], _, text, htext => by
    obtain rfl : text = [] := htext
    exact .nil
  | [statement], h, text, htext => by
    rw [Block.spellings, Block.spellings, mul_one]
    exact Statement.scans_printings h.1 text htext
  | statement :: next :: rest, h, text, htext => by
    obtain ⟨_, ⟨first, hfirst, gap, hgap, rfl⟩, others, hothers, rfl⟩ := htext
    have hrest : Scans EndsWord (gap ++ others) (1 * Block.spellings (next :: rest)) :=
      (scans_blanks hgap.2).append_anywhere (Block.scans_printings h.2 others hothers)
    rw [one_mul] at hrest
    show Scans EndsWord (first ++ gap ++ others) _
    rw [Block.spellings, List.append_assoc]
    refine (Statement.scans_printings h.1 first hfirst).append hrest fun tail _ => ?_
    obtain ⟨c, more, rfl⟩ := List.exists_cons_of_ne_nil hgap.1
    exact .cons (.inl (hgap.2 c List.mem_cons_self))

end

/-! ## Programs -/

/-- Whatever is printed for a well-formed program is parsed as that program. -/
theorem parse_of_mem_printings {source : String} {program : Block}
    (hwf : Block.WellFormed program) (h : source.toList ∈ programPrintings program) :
    parse source = .ok program := by
  obtain ⟨_, ⟨before, hbefore, text, htext, rfl⟩, behind, hbehind, heq⟩ := h
  have hblock : Scans EndsWord (text ++ behind) (Block.spellings program * 1) :=
    (Block.scans_printings hwf text htext).append (scans_blanks hbehind)
      fun rest hrest => .append hbehind hrest
  have hall : Scans EndsWord (before ++ (text ++ behind)) (1 * (Block.spellings program * 1)) :=
    (scans_blanks hbefore).append_anywhere hblock
  rw [one_mul, mul_one, ← List.append_assoc, show before ++ text ++ behind = source.toList from heq]
    at hall
  obtain ⟨us, hus, hshort, hsplits⟩ := hall [] [] [] .nil (.done .nil)
  rw [List.append_nil, List.append_nil] at hsplits
  obtain ⟨p, hscan⟩ := Scan.scanFrom_of_splits hsplits hshort
  have htokens : tokenize source = .ok (us ++ [⟨.endOfInput, "", p⟩]) := mapError_eq_ok.2 hscan
  have hspelled : us ++ [⟨.endOfInput, "", p⟩] ∈ programSpellings program :=
    Language.append_mem_mul hus ⟨_, rfl, rfl⟩
  rw [parse, htokens]
  exact mapError_eq_ok.2 (Grammar.parseTokens_of_spelled hspelled)

/-- **Printing and parsing are inverse.** Every text that is printed for a well-formed program is
parsed as that program, and whatever is parsed is well-formed. -/
theorem parse_printed :
    (∀ program, Block.WellFormed program → ∀ source : String,
      source.toList ∈ programPrintings program → parse source = .ok program) ∧
    ∀ source program, parse source = .ok program → Block.WellFormed program :=
  ⟨fun _ hwf _ => parse_of_mem_printings hwf, fun _ _ => wellFormed_of_parse⟩

/-- A branch with an empty second part, printed without blanks around its braces. -/
theorem parse_printed_else :
    Block.WellFormed [.branchElse [⟨"x", .equal, 0⟩] [.move .right] []] ∧
    "if x == 0\x7bmove_right\x7delse\x7b\x7d".toList ∈
      programPrintings [.branchElse [⟨"x", .equal, 0⟩] [.move .right] []] ∧
    parse "if x == 0\x7bmove_right\x7delse\x7b\x7d" =
      .ok [.branchElse [⟨"x", .equal, 0⟩] [.move .right] []] := by
  have hwf : Block.WellFormed [.branchElse [⟨"x", .equal, 0⟩] [.move .right] []] := by
    have hvariable : IsVariable "x" := ⟨by decide, by decide⟩
    simp [Block.WellFormed, Statement.WellFormed, Condition.WellFormed, Comparison.WellFormed,
      hvariable]
  have hmem : "if x == 0\x7bmove_right\x7delse\x7b\x7d".toList ∈
      programPrintings [.branchElse [⟨"x", .equal, 0⟩] [.move .right] []] := by
    have hmove : "move_right".toList ∈ Block.printings [.move .right] := rfl
    have hempty : [] ∈ Block.printings [] := rfl
    have hbody : "\x7bmove_right\x7d".toList ∈ bracedPrintings (Block.printings [.move .right]) :=
      mem_bracedPrintings hmove
    have hnone : "\x7b\x7d".toList ∈ bracedPrintings (Block.printings []) :=
      mem_bracedPrintings hempty
    have hblock : "if x == 0\x7bmove_right\x7delse\x7b\x7d".toList ∈
        Block.printings [.branchElse [⟨"x", .equal, 0⟩] [.move .right] []] :=
      ⟨_, ⟨_, ⟨_, ⟨_, rfl, _, hbody, rfl⟩, [], nil_mem_blanks, rfl⟩, _, rfl, rfl⟩, _, hnone, rfl⟩
    exact ⟨_, ⟨[], nil_mem_blanks, _, hblock, rfl⟩, [], nil_mem_blanks, rfl⟩
  exact ⟨hwf, hmem, parse_printed.1 _ hwf _ hmem⟩

end TapeCompiler
