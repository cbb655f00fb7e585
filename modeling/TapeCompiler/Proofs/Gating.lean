import TapeCompiler.Proofs.Lowering.Guarded
import TapeCompiler.Proofs.Lowering.Mentions
import TapeCompiler.Proofs.Lowering.Preserves
/-!
# Gating

The code of a body stands inside the gates of the statements around it. Their flags are less deep
than the body, and its code mentions no such flag (`lowerBlock_gated`).
-/
namespace TapeCompiler

open TapeCompiler.Asm

/-! ## Code around other code -/

/-- Code is put between the same instructions whatever it is, and the loops that are open there are
loops on flags in `F`. -/
def Encloses (F : Flag → Prop) (wrap : Code → Code) : Prop :=
  ∃ before after flags, (∀ code, wrap code = before ++ code ++ after) ∧
    Code.Opens before flags ∧ ∀ flag ∈ flags, F flag

section

variable {F F' : Flag → Prop} {wrap inner : Code → Code} {first : Code} {flags : List Flag}
  {flag : Flag} {depth term : Int}

namespace Encloses

theorem nothing : Encloses F id :=
  ⟨[], [], [], fun code => (List.append_nil code).symm, .nil, by simp⟩

theorem mono (h : Encloses F wrap) (hF : ∀ flag, F flag → F' flag) : Encloses F' wrap := by
  obtain ⟨before, after, flags, hwrap, hopens, hall⟩ := h
  exact ⟨before, after, flags, hwrap, hopens, fun flag hmem => hF flag (hall flag hmem)⟩

theorem comp (h : Encloses F wrap) (hinner : Encloses F inner) : Encloses F (wrap ∘ inner) := by
  obtain ⟨before, after, flags, hwrap, hopens, hall⟩ := h
  obtain ⟨before', after', flags', hwrap', hopens', hall'⟩ := hinner
  refine ⟨before ++ before', after' ++ after, flags' ++ flags, fun code => ?_,
    hopens.append hopens', List.forall_mem_append.2 ⟨hall', hall⟩⟩
  simp only [Function.comp_apply, hwrap, hwrap', List.append_assoc]

theorem inside (h : Encloses F wrap) (hopens : Code.Opens first flags)
    (hflags : ∀ flag ∈ flags, F flag) : Encloses F (fun code => first ++ wrap code) := by
  have hfirst : Encloses F (first ++ ·) :=
    ⟨first, [], flags, fun code => (List.append_nil _).symm, hopens, hflags⟩
  exact hfirst.comp h

theorem after (h : Encloses F wrap) (hfirst : Code.Nested first) :
    Encloses F (fun code => first ++ wrap code) := h.inside hfirst.opens (by simp)

theorem before (h : Encloses F wrap) (last : Code) : Encloses F (fun code => wrap code ++ last) := by
  have hlast : Encloses F (· ++ last) := ⟨[], last, [], fun _ => rfl, .nil, by simp⟩
  exact hlast.comp h

end Encloses

theorem encloses_whenFlag (hflag : F flag) : Encloses F (whenFlag flag.name) :=
  (Encloses.nothing.inside (Code.opens_openLoop flag) (List.forall_mem_singleton.2 hflag)).before _

/-- The flags of a gate have the depth of the block that it stands in. -/
def Flag.At (depth : Int) (flag : Flag) : Prop := flag.Natural ∧ flag.depth = depth

theorem encloses_gate (condition : Condition) (hdepth : 0 ≤ depth) (hterm : 0 ≤ term) :
    Encloses (Flag.At depth) (gate depth term condition) := by
  induction condition generalizing term with
  | nil => exact .nothing
  | cons c rest ih =>
    have hinner := ih (Int.le_add_one hterm)
    have hdifference : (Flag.difference depth term).At depth := ⟨⟨hdepth, hterm⟩, rfl⟩
    have hequality : (Flag.equality depth term).At depth := ⟨⟨hdepth, hterm⟩, rfl⟩
    have hgate : gate depth term (c :: rest) =
        gateComparison depth term c ∘ gate depth (term + 1) rest := rfl
    have hcomparison : Encloses (Flag.At depth) (gateComparison depth term c) := by
      unfold gateComparison
      cases c.test with
      | notEqual => exact (encloses_whenFlag hdifference).after (nested_differenceInto _ c)
      | equal =>
        have hset : Code.Nested (setCell (Flag.equality depth term).name 1
            :: differenceInto (Flag.difference depth term).name c) :=
          .act rfl (nested_differenceInto _ c)
        have hclear := nested_whenFlag (Flag.difference depth term).name
          (nested_setCell (Flag.equality depth term).name 0)
        exact (encloses_whenFlag hequality).after (hset.append hclear)
    exact hgate ▸ hcomparison.comp hinner

end

/-! ## Bodies -/

/-- A statement has a body, and where the code of the body is put. -/
inductive Statement.HasBody (depth : Int) : Statement → Block → (Code → Code) → Prop where
  | loop (condition body) : HasBody depth (.loop condition body) body (gateLoop depth condition)
  | branch (condition body) :
    HasBody depth (.branch condition body) body fun code => gateBranch depth condition code none
  | taken (condition body otherwise) :
    HasBody depth (.branchElse condition body otherwise) body fun code =>
      gateBranch depth condition code (some (lowerBlock (depth + 1) otherwise))
  | untaken (condition body otherwise) :
    HasBody depth (.branchElse condition body otherwise) otherwise fun code =>
      gateBranch depth condition (lowerBlock (depth + 1) body) (some code)

/-- A block is the other one, or is a body somewhere in it: the depths of both, and where the code
of the inner one is put. -/
inductive Block.Contains : Int → Block → Int → Block → (Code → Code) → Prop where
  | self (depth block) : Contains depth block depth block id
  | inside (first statement rest) {depth deep : Int} {body inner : Block} {wrap hole : Code → Code} :
    statement.HasBody depth body wrap → Contains (depth + 1) body deep inner hole →
      Contains depth (first ++ statement :: rest) deep inner fun code =>
        lowerBlock depth first ++ (wrap (hole code) ++ lowerBlock depth rest)

section

variable {statement : Statement} {block body : Block} {wrap hole : Code → Code}
  {depth deep : Int} {x : String}

theorem namesOf_append (first second : Block) :
    namesOf (first ++ second) = namesOf first ++ namesOf second := by
  induction first with
  | nil => rfl
  | cons statement rest ih => simp [namesOf, ih]

theorem Statement.HasBody.lower (h : statement.HasBody depth body wrap) :
    lowerStatement depth statement = wrap (lowerBlock (depth + 1) body) := by
  cases h <;> rfl

theorem Statement.HasBody.names (h : statement.HasBody depth body wrap) (hx : x ∈ namesOf body) :
    x ∈ statement.names := by
  cases h <;> simp [Statement.names, hx]

theorem Statement.HasBody.encloses (h : statement.HasBody depth body wrap) (hdepth : 0 ≤ depth) :
    Encloses (Flag.At depth) wrap := by
  have huntaken : (Flag.untaken depth).At depth := ⟨hdepth, rfl⟩
  have hagain : (Flag.again depth).At depth := ⟨hdepth, rfl⟩
  -- Inside the gates the body is followed by an instruction for the flag of the whole statement.
  cases h with
  | loop condition body =>
    have hgate := (encloses_gate condition hdepth Int.le_rfl).comp
      (Encloses.nothing.before [setCell (Flag.again depth).name 1])
    have hopens : Code.Opens [setCell (Flag.again depth).name 1, .openLoop (Flag.again depth).ref,
        setCell (Flag.again depth).name 0] [Flag.again depth] := rfl
    exact (hgate.inside hopens (List.forall_mem_singleton.2 hagain)).before _
  | branch condition body => exact encloses_gate condition hdepth Int.le_rfl
  | taken condition body otherwise =>
    have hgate := (encloses_gate condition hdepth Int.le_rfl).comp
      (Encloses.nothing.before [setCell (Flag.untaken depth).name 0])
    exact (hgate.after (nested_setCell (Flag.untaken depth).name 1)).before _
  | untaken condition body otherwise =>
    have hbody := (nested_lowerBlock (depth + 1) body).append
      (nested_setCell (Flag.untaken depth).name 0)
    exact (encloses_whenFlag huntaken).after (.act rfl (nested_gate condition hbody))

theorem Block.Contains.lower (h : Block.Contains depth block deep body hole) :
    lowerBlock depth block = hole (lowerBlock deep body) := by
  induction h with
  | self => rfl
  | inside first statement rest hbody _ ih =>
    rw [lowerBlock_append, lowerBlock, hbody.lower, ih]

theorem Block.Contains.depth_le (h : Block.Contains depth block deep body hole) :
    depth ≤ deep := by
  induction h with
  | self => exact Int.le_rfl
  | inside first statement rest hbody _ ih => omega

theorem Block.Contains.names (h : Block.Contains depth block deep body hole)
    (hx : x ∈ namesOf body) : x ∈ namesOf block := by
  induction h with
  | self => exact hx
  | inside first statement rest hbody _ ih =>
    rw [namesOf_append, List.mem_append, namesOf, List.mem_append]
    exact .inr (.inl (hbody.names (ih hx)))

/-- A flag of a block of this depth or a greater one, but further out than a block inside. -/
def Flag.Between (depth deep : Int) (flag : Flag) : Prop := flag.Deep depth ∧ flag.depth < deep

theorem Block.Contains.encloses (h : Block.Contains depth block deep body hole)
    (hdepth : 0 ≤ depth) : Encloses (Flag.Between depth deep) hole := by
  induction h with
  | self => exact .nothing
  | @inside first statement rest depth deep body inner wrap hole hbody hinner ih =>
    have hdeep := hinner.depth_le
    have hwrap : Encloses (Flag.Between depth deep) wrap :=
      (hbody.encloses hdepth).mono fun flag hflag =>
        ⟨⟨hflag.1, hflag.2.ge⟩, hflag.2.trans_lt (by omega)⟩
    have hhole : Encloses (Flag.Between depth deep) hole :=
      (ih (by omega)).mono fun flag hflag => ⟨⟨hflag.1.1, by have := hflag.1.2; omega⟩, hflag.2⟩
    exact ((hwrap.comp hhole).before _).after (nested_lowerBlock _ first)

theorem nodup_names {flags : List Flag} (h : flags.Nodup) (hnatural : ∀ flag ∈ flags, flag.Natural) :
    (flags.map Flag.name).Nodup :=
  h.map_on fun flag hflag other hother =>
    Flag.name_inj (hnatural flag hflag) (hnatural other hother)

/-- **Lowered code is gated.** Its brackets match, and the loops that are open at any place are loops on
different flags, none of them less deep than the block. The code mentions no flag that is less deep
than the block, and the code of a body in it none of a gate that the body stands in. -/
theorem lowerBlock_gated (hdepth : 0 ≤ depth) (hnames : ∀ x ∈ namesOf block, isReserved x = false) :
    Code.Nested (lowerBlock depth block) ∧
      (∀ before after, lowerBlock depth block = before ++ after → ∃ flags : List Flag,
        Code.Opens before flags ∧ (flags.map Flag.name).Nodup ∧ ∀ flag ∈ flags, flag.Deep depth) ∧
      (∀ flag : Flag, flag.Natural → flag.name ∈ (lowerBlock depth block).names →
        depth ≤ flag.depth) ∧
      ∀ deep body hole, Block.Contains depth block deep body hole →
        lowerBlock depth block = hole (lowerBlock deep body) ∧
        (∀ flag : Flag, flag.Natural → flag.name ∈ (lowerBlock deep body).names →
          deep ≤ flag.depth) ∧
        Encloses (fun flag => flag.Between depth deep ∧
          flag.name ∉ (lowerBlock deep body).names) hole := by
  have hguarded := guarded_lowerBlock block depth hdepth
  refine ⟨hguarded.nested, fun before after heq => ?_,
    fun flag => depth_le_of_mem_names hdepth hnames, fun deep body hole h => ?_⟩
  · obtain ⟨flags, hopens, hnodup, hall⟩ := hguarded.opened before after heq
    exact ⟨flags, hopens, nodup_names hnodup fun flag hmem => (hall flag hmem).1, hall⟩
  · have hmentioned : ∀ flag : Flag, flag.Natural → flag.name ∈ (lowerBlock deep body).names →
        deep ≤ flag.depth :=
      fun flag => depth_le_of_mem_names (hdepth.trans h.depth_le) fun x hx => hnames x (h.names hx)
    refine ⟨h.lower, hmentioned, (h.encloses hdepth).mono fun flag hbetween => ⟨hbetween, ?_⟩⟩
    intro hmem
    have := hmentioned flag hbetween.1.1 hmem
    exact absurd hbetween.2 (by omega)

end

/-- The last part of a branch in a loop: it stands inside a loop on the flag of the outer statement,
one on the flag of its comparison, and one on the flag of the branch. -/
theorem lowerBlock_gated_else : ∃ hole,
    Block.Contains 0 [.loop [⟨"a", .notEqual, 0⟩]
        [.branchElse [⟨"b", .equal, 1⟩] [.input "b"] [.output "b"]]] 2 [.output "b"] hole ∧
      Encloses (fun flag => flag.Between 0 2 ∧
        flag.name ∉ (lowerBlock 2 [.output "b"]).names) hole := by
  have hbranch := Block.Contains.inside [] _ [] (.untaken [⟨"b", .equal, 1⟩] [.input "b"] _)
    (.self (0 + 1 + 1) [.output "b"])
  have hloop := Block.Contains.inside [] _ [] (.loop [⟨"a", .notEqual, 0⟩] _) hbranch
  have hnames : ∀ x ∈ namesOf [.loop [⟨"a", .notEqual, 0⟩]
      [.branchElse [⟨"b", .equal, 1⟩] [.input "b"] [.output "b"]]], isReserved x = false := by
    decide
  obtain ⟨-, -, -, hgated⟩ := lowerBlock_gated (Int.le_refl 0) hnames
  exact ⟨_, hloop, (hgated _ _ _ hloop).2.2⟩

end TapeCompiler
