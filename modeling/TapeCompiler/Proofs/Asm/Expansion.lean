import TapeCompiler.Proofs.Asm.Encoding
/-!
# Assembling code behind its definitions

Definitions by numbers, followed by code without definitions, always expand, and every name in the
code becomes the last number defined for it (`expand_defines`). When all operands have become
numbers that may count something, the code is encoded, and only then
(`assembleNumbered_defines_ok_iff`).
-/
namespace TapeCompiler.Asm

/-! ## Expansion -/

def Instr.isDefine {α : Type} : Instr α → Bool
  | .define _ _ => true
  | _ => false

theorem Instr.eq_define {α : Type} {instr : Instr α} (h : instr.isDefine = true) :
    ∃ name value, instr = .define name value := by
  cases instr with
  | define name value => exact ⟨name, value, rfl⟩
  | _ => cases h

theorem Instr.isDefine_map {α β : Type} (f : α → β) (instr : Instr α) :
    (instr.map f).isDefine = instr.isDefine := by
  cases instr <;> rfl

theorem Instr.map_map {α β γ : Type} (f : α → β) (g : β → γ) (instr : Instr α) :
    (instr.map f).map g = instr.map fun x => g (f x) := by
  cases instr <;> simp [Instr.map]

theorem Instr.map_congr {α β : Type} {f g : α → β} {instr : Instr α}
    (h : ∀ operand ∈ instr.operands, f operand.2 = g operand.2) : instr.map f = instr.map g := by
  cases instr with
  | comment text => rfl
  | define | right | left | openLoop | closeLoop | read | write =>
    simp only [Instr.operands, List.forall_mem_cons] at h
    rw [Instr.map, h.1, Instr.map]
  | add | sub | set =>
    simp only [Instr.operands, List.forall_mem_cons] at h
    rw [Instr.map, h.1, h.2.1, Instr.map]
  | copy source targets =>
    simp only [Instr.operands, List.forall_mem_cons, List.forall_mem_map] at h
    rw [Instr.map, h.1, List.map_congr_left h.2, Instr.map]

/-- Definitions by numbers. -/
def defines (pairs : List (String × Int)) : List (Instr Ref) :=
  pairs.map fun (name, n) => .define name (.number n)

theorem expandFrom_cons {definitions : Definitions} {line : Nat} {instr : Instr Ref}
    (h : instr.isDefine = false) (rest : Numbered) :
    expandFrom definitions ((line, instr) :: rest) = (expandFrom definitions rest).map
      fun expanded => (line, instr.map (Ref.resolve definitions)) :: expanded := by
  have hne : ∀ name value, instr = .define name value → False := by
    rintro name value rfl
    cases h
  rw [expandFrom.eq_3 _ _ _ _ hne]
  cases expandFrom definitions rest <;> rfl

/-- The expansions that succeed, instruction by instruction. -/
inductive Expansion : Definitions → Numbered → Numbered → Prop
  | done {definitions : Definitions} : Expansion definitions [] []
  | define {definitions : Definitions} {line : Nat} {name : String} {value : Ref} {n : Int}
    {rest expanded : Numbered} (hvalue : value.resolve definitions = .number n)
    (h : Expansion ((name, n) :: definitions) rest expanded) :
    Expansion definitions ((line, .define name value) :: rest) expanded
  | keep {definitions : Definitions} {line : Nat} {instr : Instr Ref} {rest expanded : Numbered}
    (hdefine : instr.isDefine = false) (h : Expansion definitions rest expanded) :
    Expansion definitions ((line, instr) :: rest)
      ((line, instr.map (Ref.resolve definitions)) :: expanded)

theorem expansion_of_expandFrom {definitions : Definitions} {program expanded : Numbered}
    (h : expandFrom definitions program = .ok expanded) : Expansion definitions program expanded := by
  induction program generalizing definitions expanded with
  | nil =>
    cases h
    exact .done
  | cons entry rest ih =>
    obtain ⟨line, instr⟩ := entry
    cases hdefine : instr.isDefine with
    | true =>
      obtain ⟨name, value, rfl⟩ := instr.eq_define hdefine
      rw [expandFrom] at h
      cases hvalue : value.resolve definitions with
      | number n =>
        rw [hvalue] at h
        exact .define hvalue (ih h)
      | name s =>
        rw [hvalue] at h
        cases h
    | false =>
      rw [expandFrom_cons hdefine] at h
      obtain ⟨more, hmore, rfl⟩ := map_eq_ok.1 h
      exact .keep hdefine (ih hmore)

theorem expandFrom_body {definitions : Definitions} {program : Numbered}
    (h : ∀ entry ∈ program, entry.2.isDefine = false) :
    expandFrom definitions program =
      .ok (program.map fun entry => (entry.1, entry.2.map (Ref.resolve definitions))) := by
  induction program with
  | nil => rfl
  | cons entry rest ih =>
    obtain ⟨line, instr⟩ := entry
    rw [List.forall_mem_cons] at h
    rw [expandFrom_cons h.1, ih h.2]
    rfl

theorem expandFrom_defines {pairs : List (String × Int)} {header : Numbered}
    (hheader : header.map Prod.snd = defines pairs) (definitions : Definitions) (rest : Numbered) :
    expandFrom definitions (header ++ rest) = expandFrom (pairs.reverse ++ definitions) rest := by
  induction pairs generalizing header definitions with
  | nil =>
    rw [List.map_eq_nil_iff.1 hheader]
    rfl
  | cons pair more ih =>
    obtain ⟨⟨line, instr⟩, header, rfl, hinstr, hmore⟩ := List.map_eq_cons_iff.1 hheader
    obtain rfl : instr = .define pair.1 (.number pair.2) := hinstr
    rw [List.cons_append, expandFrom, Ref.resolve_number]
    simp only
    rw [ih hmore, List.reverse_cons, List.append_assoc]
    rfl

/-- Definitions are carried out and dropped. -/
theorem expand_defines {pairs : List (String × Int)} {body : List (Instr Ref)} {program : Numbered}
    (hprogram : program.map Prod.snd = defines pairs ++ body)
    (hbody : ∀ instr ∈ body, instr.isDefine = false) :
    ∃ expanded, expand program = .ok expanded ∧
      expanded.map Prod.snd = body.map (Instr.map (Ref.resolve pairs.reverse)) := by
  obtain ⟨header, rest, rfl, hheader, rfl⟩ := List.map_eq_append_iff.1 hprogram
  have hrest : ∀ entry ∈ rest, entry.2.isDefine = false :=
    fun entry hmem => hbody _ (List.mem_map_of_mem hmem)
  refine ⟨rest.map fun entry => (entry.1, entry.2.map (Ref.resolve pairs.reverse)), ?_, ?_⟩
  · rw [expand, expandFrom_defines hheader, List.append_nil]
    exact expandFrom_body hrest
  · rw [List.map_map, List.map_map]
    rfl

/-! ## Encoding -/

/-- An operand that may be an offset or a count. -/
def Ref.IsCount : Ref → Prop
  | .number n => 0 ≤ n ∧ n < countLimit
  | .name _ => False

theorem Ref.IsCount.offset_eq {ref : Ref} (h : ref.IsCount) (instr : Instr Ref) :
    ref.offset instr = .ok ref.toNat := by
  cases ref with
  | name s => exact absurd h id
  | number n => exact if_neg (Int.not_lt.2 h.1)

theorem traverse_eq_ok {ε α β : Type} {f : α → Except ε β} {g : α → β} {instr : Instr α}
    (h : ∀ operand ∈ instr.operands, f operand.2 = .ok (g operand.2)) :
    instr.traverse f = .ok (instr.map g) := by
  cases instr with
  | comment text => rfl
  | define name value =>
    simp only [Instr.operands, List.forall_mem_cons] at h
    rw [Instr.traverse, h.1]
    rfl
  | right count | left count | openLoop cell | closeLoop cell | read cell | write cell =>
    simp only [Instr.operands, List.forall_mem_cons] at h
    rw [Instr.traverse, h.1]
    rfl
  | add cell amount | sub cell amount | set cell amount =>
    simp only [Instr.operands, List.forall_mem_cons] at h
    rw [Instr.traverse, h.1, h.2.1]
    rfl
  | copy source targets =>
    simp only [Instr.operands, List.forall_mem_cons, List.forall_mem_map] at h
    rw [Instr.traverse, h.1, mapM_eq_ok h.2]
    rfl

theorem isCount_of_offset {ref : Ref} {instr : Instr Ref} {n : Nat} (h : ref.offset instr = .ok n)
    (hlt : ref.toNat < countLimit) : ref.IsCount := by
  cases ref with
  | name s => simp [Ref.offset] at h
  | number m =>
    rw [Ref.offset] at h
    split at h
    · simp at h
    · next hm => exact ⟨Int.not_lt.1 hm, (Int.toNat_lt (Int.not_lt.1 hm)).1 hlt⟩

theorem forall_of_traverse_eq_ok {ε α β : Type} {f : α → Except ε β} {instr : Instr α}
    {result : Instr β} (h : instr.traverse f = .ok result) :
    ∀ operand ∈ instr.operands, ∃ y, f operand.2 = .ok y := by
  cases instr with
  | comment text => exact fun _ hmem => absurd hmem List.not_mem_nil
  | define | right | left | openLoop | closeLoop | read | write =>
    obtain ⟨y, hy, -⟩ := bind_eq_ok.1 h
    exact List.forall_mem_singleton.2 ⟨y, hy⟩
  | add | sub | set =>
    obtain ⟨y, hy, h⟩ := bind_eq_ok.1 h
    obtain ⟨z, hz, -⟩ := bind_eq_ok.1 h
    exact List.forall_mem_cons.2 ⟨⟨y, hy⟩, List.forall_mem_singleton.2 ⟨z, hz⟩⟩
  | copy source targets =>
    obtain ⟨y, hy, h⟩ := bind_eq_ok.1 h
    obtain ⟨zs, hzs, -⟩ := bind_eq_ok.1 h
    exact List.forall_mem_cons.2 ⟨⟨y, hy⟩, List.forall_mem_map.2 (forall_of_mapM_eq_ok hzs)⟩

theorem exists_of_traverse_eq_error {ε α β : Type} {f : α → Except ε β} {instr : Instr α} {e : ε}
    (h : instr.traverse f = .error e) : ∃ operand ∈ instr.operands, f operand.2 = .error e := by
  cases instr with
  | comment text => cases h
  | define | right | left | openLoop | closeLoop | read | write =>
    rcases bind_eq_error.1 h with h | ⟨_, -, h⟩
    · exact ⟨_, List.mem_singleton_self _, h⟩
    · cases h
  | add | sub | set =>
    rcases bind_eq_error.1 h with h | ⟨_, -, h⟩
    · exact ⟨_, List.mem_cons_self, h⟩
    · rcases bind_eq_error.1 h with h | ⟨_, -, h⟩
      · exact ⟨_, List.mem_cons_of_mem _ List.mem_cons_self, h⟩
      · cases h
  | copy source targets =>
    rcases bind_eq_error.1 h with h | ⟨_, -, h⟩
    · exact ⟨_, List.mem_cons_self, h⟩
    · rcases bind_eq_error.1 h with h | ⟨_, -, h⟩
      · obtain ⟨target, hmem, htarget⟩ := exists_of_mapM_eq_error h
        exact ⟨_, List.mem_cons_of_mem _ (List.mem_map_of_mem hmem), htarget⟩
      · cases h

/-- An instruction that is no definition is encoded when its operands may be offsets or counts. -/
theorem encodeRef_eq_ok_iff {instr : Instr Ref} (hdefine : instr.isDefine = false) :
    (∃ code, encodeRef instr = .ok code) ↔ ∀ operand ∈ instr.operands, operand.2.IsCount := by
  constructor
  · rintro ⟨code, h⟩
    unfold encodeRef at h
    split at h
    · simp [Instr.isDefine] at hdefine
    · exact fun _ hmem => absurd hmem List.not_mem_nil
    · obtain ⟨resolved, hresolved, -⟩ := map_eq_ok.1 h
      have hmap := offsets_eq_map hresolved
      obtain ⟨_, htraverse, hsmall⟩ := bind_eq_ok.1 hresolved
      split at hsmall
      · next hall =>
        cases Except.ok.inj hsmall
        rw [hmap, Instr.operands_map, List.all_map, List.all_eq_true] at hall
        intro operand hmem
        obtain ⟨n, hn⟩ := forall_of_traverse_eq_ok htraverse operand hmem
        exact isCount_of_offset hn (of_decide_eq_true (hall operand hmem))
      · simp at hsmall
  · intro h
    have htraverse : instr.traverse (Ref.offset instr) = .ok (instr.map Ref.toNat) :=
      traverse_eq_ok fun operand hmem => (h operand hmem).offset_eq instr
    have hsmall : (instr.map Ref.toNat).operands.all (·.2 < countLimit) = true := by
      rw [Instr.operands_map, List.all_map, List.all_eq_true]
      intro operand hmem
      have hcount := h operand hmem
      obtain ⟨role, ref⟩ := operand
      cases ref with
      | name s => exact absurd hcount id
      | number n => exact decide_eq_true (Int.toNat_lt hcount.1 |>.2 hcount.2)
    have hoffsets : instr.offsets = .ok (instr.map Ref.toNat) := by
      rw [Instr.offsets, htraverse]
      exact if_pos hsmall
    unfold encodeRef
    split
    · exact ⟨[], rfl⟩
    · exact ⟨[], rfl⟩
    · rw [hoffsets]
      exact ⟨_, rfl⟩

theorem encodeAll_eq_ok_iff {program : Numbered}
    (hdefine : ∀ instr ∈ program.map Prod.snd, instr.isDefine = false) :
    (∃ code, encodeAll program = .ok code) ↔
      ∀ instr ∈ program.map Prod.snd, ∀ operand ∈ instr.operands, operand.2.IsCount := by
  induction program with
  | nil => simp [encodeAll]
  | cons entry rest ih =>
    obtain ⟨line, instr⟩ := entry
    rw [List.map_cons, List.forall_mem_cons] at hdefine
    rw [List.map_cons, List.forall_mem_cons, ← encodeRef_eq_ok_iff hdefine.1, ← ih hdefine.2,
      encodeAll]
    cases encodeRef instr with
    | error fault => simp
    | ok first => cases encodeAll rest <;> simp [bind, Except.bind, pure, Except.pure]

/-! ## Programs behind definitions -/

section

variable {pairs : List (String × Int)} {body : List (Instr Ref)} {program : Numbered}

/-- What is assembled is the code behind the definitions, its operands replaced by numbers. -/
theorem assembleNumbered_defines_eq {code : List Op}
    (hprogram : program.map Prod.snd = defines pairs ++ body)
    (hbody : ∀ instr ∈ body, instr.isDefine = false) (h : assembleNumbered program = .ok code) :
    code =
      (body.map (Instr.map fun ref => (ref.resolve pairs.reverse).toNat)).flatMap encode := by
  obtain ⟨expanded, hexpand, hsnd⟩ := expand_defines hprogram hbody
  rw [assembleNumbered, hexpand] at h
  have hcomp : expanded.map (fun entry => entry.2.map Ref.toNat) =
      (expanded.map Prod.snd).map (Instr.map Ref.toNat) := by
    rw [List.map_map]
    rfl
  rw [encodeAll_eq h, hcomp, hsnd, List.map_map]
  exact congrArg (List.flatMap encode) (List.map_congr_left fun _ _ => Instr.map_map _ _ _)

/-- Code is assembled when every operand is defined as something that may be counted. -/
theorem assembleNumbered_defines_ok_iff (hprogram : program.map Prod.snd = defines pairs ++ body)
    (hbody : ∀ instr ∈ body, instr.isDefine = false) :
    (∃ code, assembleNumbered program = .ok code) ↔ ∀ instr ∈ body, ∀ operand ∈ instr.operands,
      (operand.2.resolve pairs.reverse).IsCount := by
  obtain ⟨expanded, hexpand, hsnd⟩ := expand_defines hprogram hbody
  have hdefine : ∀ instr ∈ expanded.map Prod.snd, instr.isDefine = false := by
    rw [hsnd, List.forall_mem_map]
    intro instr hmem
    rw [Instr.isDefine_map]
    exact hbody instr hmem
  rw [assembleNumbered, hexpand]
  refine (encodeAll_eq_ok_iff hdefine).trans ?_
  rw [hsnd, List.forall_mem_map]
  refine forall₂_congr fun instr _ => ?_
  rw [Instr.operands_map, List.forall_mem_map]

end

end TapeCompiler.Asm
