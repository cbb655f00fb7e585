import Mathlib.Computability.Language
import TapeCompiler.Proofs.Source.WellFormed
/-!
# How trees are spelled

The grammar from the side of the tree: each tree has its spellings, the rows of tokens that stand
for it. A block behind an `else` may go without braces when it is one branch and nothing else.
Trees spelled with tokens whose texts fit their kinds are well-formed (`Block.yields_wellFormed`).
-/
namespace TapeCompiler

open TapeCompiler.Grammar

namespace Spelling

/-! ## Single tokens -/

def ofKind (kind : TokenKind) : Language Token := {ts | ∃ t, ts = [t] ∧ t.kind = kind}

def ofWord (word : String) : Language Token := {ts | ∃ t, ts = [t] ∧ isKeyword word t = true}

def ofVariable (name : String) : Language Token :=
  {ts | ∃ t, ts = [t] ∧ t.kind = .name ∧ t.text = name ∧ name ∉ reservedWords}

def ofNumber (n : Int) : Language Token :=
  {ts | ∃ t, ts = [t] ∧ t.kind = .number ∧ Text.readInteger t.text = .ok n}

def ofTest : Test → Language Token
  | .equal => ofKind .equal
  | .notEqual => ofKind .notEqual

/-- A block in braces. -/
def braced (block : Language Token) : Language Token :=
  ofKind .openBrace * block * ofKind .closeBrace

end Spelling

open Spelling

/-! ## Trees -/

def Comparison.spellings (c : Comparison) : Language Token :=
  ofVariable c.name * ofTest c.test * ofNumber c.value

/-- The empty condition cannot be spelled. -/
def Condition.spellings : Condition → Language Token
  | [] => 0
  | [c] => c.spellings
  | c :: d :: rest => c.spellings * ofKind .and * Condition.spellings (d :: rest)

/-- Whether a block is one branch. -/
def Block.isBranch : Block → Bool
  | [.branch _ _] | [.branchElse _ _ _] => true
  | _ => false

mutual

def Statement.spellings : Statement → Language Token
  | .input name =>
    ofWord "input" * ofKind .openParen * ofVariable name * ofKind .closeParen
  | .output name =>
    ofWord "output" * ofKind .openParen * ofVariable name * ofKind .closeParen
  | .assign name value => ofVariable name * ofKind .assign * ofNumber value
  | .move direction => ofWord direction.word
  | .loop condition body =>
    ofWord "while" * condition.spellings * braced (Block.spellings body)
  | .branch condition body =>
    ofWord "if" * condition.spellings * braced (Block.spellings body)
  | .branchElse condition body otherwise =>
    ofWord "if" * condition.spellings * braced (Block.spellings body) * ofWord "else" *
      (braced (Block.spellings otherwise) +
        if Block.isBranch otherwise then Block.spellings otherwise else 0)

def Block.spellings : Block → Language Token
  | [] => 1
  | statement :: rest => statement.spellings * Block.spellings rest

end

/-- The spellings of a program, the end of the input included. -/
def programSpellings (program : Block) : Language Token :=
  Block.spellings program * ofKind .endOfInput

/-! ## What tokens tell of the tree -/

/-- A token whose text fits its kind: a name, or a number that fits into a byte. -/
def Token.FitsKind (t : Token) : Prop :=
  (t.kind = .name → Text.isName t.text.toList = true) ∧
    (t.kind = .number → ∃ n : Int, Text.readInteger t.text = .ok n ∧ 0 ≤ n ∧ n ≤ 255)

namespace Spelling

variable {L M : Language Token} {p q : Prop}

/-- Fitting tokens in the language are a proof of `p`. -/
def Yields (L : Language Token) (p : Prop) : Prop := ∀ ts ∈ L, (∀ t ∈ ts, t.FitsKind) → p

theorem Yields.left (h : Yields L p) : Yields (L * M) p := by
  rintro _ ⟨ts, hts, us, -, rfl⟩ hfits
  exact h ts hts fun t ht => hfits t (List.mem_append_left _ ht)

theorem Yields.right (h : Yields M p) : Yields (L * M) p := by
  rintro _ ⟨ts, -, us, hus, rfl⟩ hfits
  exact h us hus fun t ht => hfits t (List.mem_append_right _ ht)

theorem Yields.and (hp : Yields L p) (hq : Yields L q) : Yields L (p ∧ q) := by
  intro ts hts hfits
  exact ⟨hp ts hts hfits, hq ts hts hfits⟩

theorem Yields.add (hL : Yields L p) (hM : Yields M p) : Yields (L + M) p := by
  intro ts hts hfits
  rcases hts with hts | hts
  · exact hL ts hts hfits
  · exact hM ts hts hfits

theorem Yields.zero : Yields 0 p := by
  intro ts hts
  exact absurd hts (Language.notMem_zero ts)

theorem Yields.braced (h : Yields L p) : Yields (braced L) p := h.right.left

theorem yields_ofVariable (name : String) : Yields (ofVariable name) (IsVariable name) := by
  rintro _ ⟨t, rfl, hkind, rfl, hreserved⟩ hfits
  exact ⟨(hfits t List.mem_cons_self).1 hkind, hreserved⟩

theorem yields_ofNumber (n : Int) : Yields (ofNumber n) (0 ≤ n ∧ n ≤ 255) := by
  rintro _ ⟨t, rfl, hkind, hvalue⟩ hfits
  obtain ⟨m, hm, hrange⟩ := (hfits t List.mem_cons_self).2 hkind
  obtain rfl : m = n := Except.ok.inj (hm.symm.trans hvalue)
  exact hrange

end Spelling

theorem Comparison.yields_wellFormed (c : Comparison) : Yields c.spellings c.WellFormed :=
  (yields_ofVariable c.name).left.left.and (yields_ofNumber c.value).right

theorem Condition.yields_wellFormed :
    ∀ condition : Condition, Yields condition.spellings condition.WellFormed
  | [] => .zero
  | [c] => by
    intro ts hts hfits
    refine ⟨List.cons_ne_nil _ _, List.forall_mem_singleton.2 ?_⟩
    exact c.yields_wellFormed ts hts hfits
  | c :: d :: rest => by
    intro ts hts hfits
    have hfirst : Yields (Condition.spellings (c :: d :: rest)) c.WellFormed :=
      c.yields_wellFormed.left.left
    have hothers : Yields (Condition.spellings (c :: d :: rest))
        (Condition.WellFormed (d :: rest)) := (Condition.yields_wellFormed (d :: rest)).right
    refine ⟨List.cons_ne_nil _ _, List.forall_mem_cons.2 ⟨hfirst ts hts hfits, ?_⟩⟩
    exact (hothers ts hts hfits).2

mutual

theorem Statement.yields_wellFormed :
    ∀ statement : Statement, Yields statement.spellings statement.WellFormed
  | .input name | .output name => (yields_ofVariable name).right.left
  | .assign name value => (yields_ofVariable name).left.left.and (yields_ofNumber value).right
  | .move _ => fun _ _ _ => trivial
  | .loop condition body | .branch condition body =>
    condition.yields_wellFormed.right.left.and (Block.yields_wellFormed body).braced.right
  | .branchElse condition body otherwise => by
    have hcondition := condition.yields_wellFormed
    have hbody := Block.yields_wellFormed body
    have hotherwise := Block.yields_wellFormed otherwise
    refine hcondition.right.left.left.left.and
      (hbody.braced.right.left.left.and (hotherwise.braced.add ?_).right)
    split
    · exact hotherwise
    · exact .zero

/-- Trees spelled with fitting tokens are well-formed. -/
theorem Block.yields_wellFormed :
    ∀ block : Block, Yields (Block.spellings block) (Block.WellFormed block)
  | [] => fun _ _ _ => trivial
  | statement :: rest =>
    statement.yields_wellFormed.left.and (Block.yields_wellFormed rest).right

end

end TapeCompiler
