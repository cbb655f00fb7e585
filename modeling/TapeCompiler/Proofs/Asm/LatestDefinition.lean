import Mathlib.Data.List.Forall2
import TapeCompiler.Proofs.Asm.TextForm
/-!
# What a name stands for

The expansion goes through a program once, with a table of the numbers defined so far. What it does
can be said without a table, by looking back: at a place of a program a name stands for what its
last definition before that place was worth there (`nameValue`). The expansion fails at the first
definition that is worth nothing, and otherwise replaces every name by what it stands for at its
place (`expand_latest`).
-/
namespace TapeCompiler.Asm

/-! ## Looking back -/

/-- The last definition of a name strictly before a place: its place, and what the name is defined
as. -/
def lastDefine? (program : Numbered) (s : String) : Nat → Option (Nat × Ref)
  | 0 => none
  | place + 1 =>
    match program[place]? with
    | some (_, .define name value) =>
      if name = s then some (place, value) else lastDefine? program s place
    | _ => lastDefine? program s place

section

variable {program : Numbered} {place line : Nat} {s : String} {value : Ref}

theorem lastDefine?_of_define (h : program[place]? = some (line, .define s value)) :
    lastDefine? program s (place + 1) = some (place, value) := by
  rw [lastDefine?, h]
  exact if_pos rfl

theorem lastDefine?_of_not_define
    (h : ∀ line value, program[place]? ≠ some (line, .define s value)) :
    lastDefine? program s (place + 1) = lastDefine? program s place := by
  rw [lastDefine?]
  split
  · next line name value heq =>
    refine if_neg ?_
    rintro rfl
    exact h line value heq
  · rfl

/-- What is found is a definition of the name, and no other one stands between it and the place. -/
theorem lastDefine?_eq_some_iff {earlier : Nat} :
    lastDefine? program s place = some (earlier, value) ↔
      earlier < place ∧ (∃ line, program[earlier]? = some (line, .define s value)) ∧
        ∀ between, earlier < between → between < place →
          ∀ line other, program[between]? ≠ some (line, .define s other) := by
  induction place with
  | zero => simp [lastDefine?]
  | succ place ih =>
    by_cases hdefine : ∃ line other, program[place]? = some (line, .define s other)
    · obtain ⟨line, other, hdefine⟩ := hdefine
      rw [lastDefine?_of_define hdefine]
      constructor
      · intro h
        obtain ⟨rfl, rfl⟩ := Prod.mk.inj (Option.some.inj h)
        exact ⟨Nat.lt_add_one place, ⟨line, hdefine⟩, fun between _ _ => by omega⟩
      · rintro ⟨hlt, ⟨line', hearlier⟩, hnone⟩
        obtain rfl | hlt := (Nat.lt_succ_iff_lt_or_eq.1 hlt).symm
        · rw [hdefine] at hearlier
          cases hearlier
          rfl
        · exact absurd hdefine (hnone place hlt (Nat.lt_add_one place) line other)
    · have hnot : ∀ line other, program[place]? ≠ some (line, .define s other) :=
        fun line other h => hdefine ⟨line, other, h⟩
      rw [lastDefine?_of_not_define hnot, ih]
      constructor
      · rintro ⟨hlt, hearlier, hnone⟩
        refine ⟨Nat.lt_succ_of_lt hlt, hearlier, fun between hafter hbefore => ?_⟩
        obtain rfl | hbefore := (Nat.lt_succ_iff_lt_or_eq.1 hbefore).symm
        · exact hnot
        · exact hnone between hafter hbefore
      · rintro ⟨hlt, ⟨line, hearlier⟩, hnone⟩
        obtain rfl | hlt := (Nat.lt_succ_iff_lt_or_eq.1 hlt).symm
        · exact absurd hearlier (hnot line value)
        · exact ⟨hlt, ⟨line, hearlier⟩, fun between hafter hbefore =>
            hnone between hafter (Nat.lt_succ_of_lt hbefore)⟩

end

/-- The number that a name stands for at a place, if it stands for one. -/
def nameValue (program : Numbered) (place : Nat) (s : String) : Option Int :=
  match _ : lastDefine? program s place with
  | none => none
  | some (_, .number n) => some n
  | some (earlier, .name other) => nameValue program earlier other
termination_by place
decreasing_by exact (lastDefine?_eq_some_iff.1 ‹_›).1

/-- The number that an operand stands for at a place. -/
def Ref.valueAt (program : Numbered) (place : Nat) : Ref → Option Int
  | number n => some n
  | name s => nameValue program place s

/-- An operand with its name replaced by the number that it stands for at a place. -/
def Ref.resolveAt (program : Numbered) (place : Nat) (ref : Ref) : Ref :=
  match ref.valueAt program place with
  | some n => number n
  | none => ref

/-- The definition at a place rests on a name that stands for nothing there. -/
def Unresolved (program : Numbered) (place line : Nat) (name s : String) : Prop :=
  program[place]? = some (line, .define name (.name s)) ∧ nameValue program place s = none

/-- What stands at a place is no definition that rests on a name without value. -/
def Resolvable (program : Numbered) (place : Nat) : Prop :=
  ∀ line name s, ¬Unresolved program place line name s

/-- An instruction after expansion: on the same line, the same instruction with as many operands of
the same roles, each replaced by what it stands for at the place of the instruction. -/
structure Survives (program : Numbered) (before : (Nat × Instr Ref) × Nat)
    (after : Nat × Instr Ref) : Prop where
  line_eq : after.1 = before.1.1
  form_eq : (after.2.map fun _ => ()) = before.1.2.map fun _ => ()
  operands_eq : after.2.operands =
    before.1.2.operands.map fun (role, ref) => (role, ref.resolveAt program before.2)

/-- The instructions of a program that are no definitions, with their places. -/
def survivors (program : Numbered) : List ((Nat × Instr Ref) × Nat) :=
  program.zipIdx.filter fun entry => !entry.1.2.isDefine

/-- What the expansion of a program gives, without any table: the error of the first definition that
cannot be resolved, or all other instructions with what their names stand for. -/
structure Resolves (program : Numbered) (result : Except Error Numbered) : Prop where
  error_iff : ∀ error, result = .error error ↔ ∃ place line name s,
    Unresolved program place line name s ∧ (∀ earlier < place, Resolvable program earlier) ∧
      error = ⟨line, .unresolvedValue s (.define name (.name s))⟩
  ok_iff : ∀ expanded, result = .ok expanded ↔ (∀ place, Resolvable program place) ∧
    List.Forall₂ (Survives program) (survivors program) expanded

/-! ## One instruction -/

/-- An instruction is known by its form and its operands. -/
theorem Instr.eq_map_of_operands {α β : Type} {f : α → β} {before : Instr α} {after : Instr β}
    (hform : (after.map fun _ => ()) = before.map fun _ => ())
    (hoperands : after.operands = before.operands.map fun (role, x) => (role, f x)) :
    after = before.map f := by
  rw [← operands_map] at hoperands
  cases before with
  | copy source targets =>
    cases after with
    | copy source' targets' =>
      -- the targets are all operands but the first
      have hvalues := congrArg (List.map Prod.snd) hoperands
      simp only [map, operands, List.map_cons, List.map_map, Function.comp_def, List.map_id',
        List.cons.injEq] at hvalues
      rw [map, hvalues.1, hvalues.2]
    | _ => cases hform
  | _ => cases after <;> simp_all [map, operands]

def resolvedEntry (program : Numbered) (entry : (Nat × Instr Ref) × Nat) : Nat × Instr Ref :=
  (entry.1.1, entry.1.2.map (Ref.resolveAt program entry.2))

theorem survives_iff {program : Numbered} {before : (Nat × Instr Ref) × Nat}
    {after : Nat × Instr Ref} :
    Survives program before after ↔ resolvedEntry program before = after := by
  constructor
  · rintro ⟨hline, hform, hoperands⟩
    exact Prod.ext hline.symm (Instr.eq_map_of_operands hform hoperands).symm
  · rintro rfl
    exact ⟨rfl, Instr.map_map _ _ _, Instr.operands_map _ _⟩

theorem forall₂_survives_iff {program : Numbered} {before : List ((Nat × Instr Ref) × Nat)}
    {after : Numbered} :
    List.Forall₂ (Survives program) before after ↔ before.map (resolvedEntry program) = after := by
  have h : Survives program = fun before after => resolvedEntry program before = after := by
    funext before after
    exact propext survives_iff
  rw [h, ← List.forall₂_map_left_iff, List.forall₂_eq_eq_eq]

/-! ## The table -/

section

variable {program : Numbered} {definitions : Definitions} {place line : Nat} {instr : Instr Ref}
  {name s : String} {value : Ref}

theorem nameValue_eq (program : Numbered) (place : Nat) (s : String) :
    nameValue program place s =
      (lastDefine? program s place).bind fun (earlier, value) => value.valueAt program earlier := by
  rw [nameValue]
  split <;> simp_all [Ref.valueAt]

theorem resolveAt_eq_number_iff {n : Int} :
    value.resolveAt program place = .number n ↔ value.valueAt program place = some n := by
  cases value with
  | number m => simp [Ref.resolveAt, Ref.valueAt]
  | name s =>
    rw [Ref.resolveAt, Ref.valueAt]
    cases nameValue program place s <;> simp

theorem resolveAt_eq_name_iff :
    value.resolveAt program place = .name s ↔ value = .name s ∧ nameValue program place s = none := by
  cases value with
  | number m => simp [Ref.resolveAt, Ref.valueAt]
  | name other =>
    rw [Ref.resolveAt, Ref.valueAt]
    cases hother : nameValue program place other with
    | none =>
      simp only [Ref.name.injEq]
      constructor
      · rintro rfl
        exact ⟨rfl, hother⟩
      · exact fun h => h.1
    | some n =>
      simp only [reduceCtorEq, Ref.name.injEq, false_iff, not_and]
      rintro rfl
      simp [hother]

/-- The table holds what every name stands for at a place. -/
def TableAt (program : Numbered) (place : Nat) (definitions : Definitions) : Prop :=
  ∀ s, definitions.lookup s = nameValue program place s

theorem TableAt.start (program : Numbered) : TableAt program 0 [] := by
  intro s
  rw [nameValue_eq]
  rfl

theorem TableAt.resolve_eq (h : TableAt program place definitions) (ref : Ref) :
    ref.resolve definitions = ref.resolveAt program place := by
  cases ref with
  | number n => rfl
  | name s =>
    rw [Ref.resolve, h s]
    rfl

theorem TableAt.define (h : TableAt program place definitions) {n : Int}
    (hentry : program[place]? = some (line, .define name value))
    (hvalue : value.resolve definitions = .number n) :
    TableAt program (place + 1) ((name, n) :: definitions) := by
  intro s
  rw [nameValue_eq]
  by_cases hs : s = name
  · subst hs
    rw [h.resolve_eq, resolveAt_eq_number_iff] at hvalue
    rw [lastDefine?_of_define hentry, List.lookup_cons_self]
    exact hvalue.symm
  · have hother : ∀ line value, program[place]? ≠ some (line, .define s value) := by
      intro line value h
      rw [hentry] at h
      cases h
      exact hs rfl
    rw [lastDefine?_of_not_define hother, ← nameValue_eq, ← h s, List.lookup_cons,
      beq_false_of_ne hs]

theorem TableAt.not_define (h : TableAt program place definitions)
    (hentry : program[place]? = some (line, instr)) (hdefine : instr.isDefine = false) :
    TableAt program (place + 1) definitions := by
  intro s
  have hnot : ∀ line value, program[place]? ≠ some (line, .define s value) := by
    intro line value h
    rw [hentry] at h
    cases h
    cases hdefine
  rw [nameValue_eq, lastDefine?_of_not_define hnot, ← nameValue_eq, h s]

end

/-! ## The walk -/

/-- The instructions that are no definitions, from a place on. -/
def survivorsFrom (program : Numbered) (place : Nat) : List ((Nat × Instr Ref) × Nat) :=
  ((program.drop place).zipIdx place).filter fun entry => !entry.1.2.isDefine

/-- What the expansion of a program may give from a place on. -/
inductive ResolvesFrom (program : Numbered) (place : Nat) : Except Error Numbered → Prop
  | resolved (hall : ∀ later, place ≤ later → Resolvable program later) :
    ResolvesFrom program place (.ok ((survivorsFrom program place).map (resolvedEntry program)))
  | unresolved {stop line : Nat} {name s : String} (hplace : place ≤ stop)
    (hstop : Unresolved program stop line name s)
    (hfirst : ∀ later, place ≤ later → later < stop → Resolvable program later) :
    ResolvesFrom program place (.error ⟨line, .unresolvedValue s (.define name (.name s))⟩)

section

variable {program rest : Numbered} {definitions : Definitions} {entry : Nat × Instr Ref}
  {place : Nat} {result : Except Error Numbered}

theorem getElem?_of_drop (h : program.drop place = entry :: rest) : program[place]? = some entry := by
  rw [← Nat.add_zero place, ← List.getElem?_drop, h]
  rfl

theorem drop_of_drop (h : program.drop place = entry :: rest) : program.drop (place + 1) = rest := by
  rw [← List.tail_drop, h]
  rfl

theorem survivorsFrom_cons (h : program.drop place = entry :: rest) :
    survivorsFrom program place =
      if entry.2.isDefine then survivorsFrom program (place + 1)
      else (entry, place) :: survivorsFrom program (place + 1) := by
  rw [survivorsFrom, survivorsFrom, h, drop_of_drop h, List.zipIdx_cons, List.filter_cons]
  cases entry.2.isDefine <;> rfl

theorem resolvable_of_not_define (hentry : program[place]? = some entry)
    (hdefine : entry.2.isDefine = false) : Resolvable program place := by
  rintro line name s ⟨h, -⟩
  rw [hentry] at h
  cases h
  cases hdefine

theorem resolvable_of_define {line : Nat} {name : String} {value : Ref} {n : Int}
    (hentry : program[place]? = some (line, .define name value))
    (hvalue : value.valueAt program place = some n) : Resolvable program place := by
  rintro line name s ⟨h, hnone⟩
  rw [hentry] at h
  cases h
  rw [Ref.valueAt, hnone] at hvalue
  cases hvalue

theorem forall_from {P : Nat → Prop} (hplace : P place)
    (h : ∀ later, place + 1 ≤ later → P later) (later : Nat) (hlater : place ≤ later) : P later := by
  obtain rfl | hlater := Nat.eq_or_lt_of_le hlater
  · exact hplace
  · exact h later hlater

/-- A definition that can be resolved gives nothing to the result. -/
theorem ResolvesFrom.skip (h : ResolvesFrom program (place + 1) result)
    (hrest : program.drop place = entry :: rest) (hdefine : entry.2.isDefine = true)
    (hplace : Resolvable program place) : ResolvesFrom program place result := by
  cases h with
  | resolved hall =>
    have hsurvivors := survivorsFrom_cons hrest
    rw [if_pos hdefine] at hsurvivors
    rw [← hsurvivors]
    exact .resolved (forall_from hplace hall)
  | unresolved hstop hunresolved hfirst =>
    exact .unresolved (Nat.le_of_succ_le hstop) hunresolved (forall_from (fun _ => hplace) hfirst)

/-- Any other instruction comes before what the rest gives. -/
theorem ResolvesFrom.keep (h : ResolvesFrom program (place + 1) result)
    (hrest : program.drop place = entry :: rest) (hdefine : entry.2.isDefine = false) :
    ResolvesFrom program place
      (result.map fun expanded => resolvedEntry program (entry, place) :: expanded) := by
  have hplace := resolvable_of_not_define (getElem?_of_drop hrest) hdefine
  cases h with
  | resolved hall =>
    have hsurvivors := survivorsFrom_cons hrest
    rw [hdefine, if_neg Bool.false_ne_true] at hsurvivors
    rw [Except.map, ← List.map_cons, ← hsurvivors]
    exact .resolved (forall_from hplace hall)
  | unresolved hstop hunresolved hfirst =>
    exact .unresolved (Nat.le_of_succ_le hstop) hunresolved (forall_from (fun _ => hplace) hfirst)

/-- What the expansion gives from a place on, with the table of that place. -/
theorem expandFrom_resolves (htable : TableAt program place definitions) :
    ResolvesFrom program place (expandFrom definitions (program.drop place)) := by
  generalize hrest : program.drop place = rest
  induction rest generalizing place definitions with
  | nil =>
    have hnone : survivorsFrom program place = [] := by
      rw [survivorsFrom, hrest]
      rfl
    have hend : ∀ later, place ≤ later → Resolvable program later := by
      rintro later hlater line name s ⟨h, -⟩
      rw [List.getElem?_eq_none (Nat.le_trans (List.drop_eq_nil_iff.1 hrest) hlater)] at h
      cases h
    have h := ResolvesFrom.resolved hend
    rwa [hnone] at h
  | cons entry rest ih =>
    obtain ⟨line, instr⟩ := entry
    have hentry := getElem?_of_drop hrest
    cases hdefine : instr.isDefine with
    | false =>
      rw [expandFrom_cons hdefine, Instr.map_congr fun operand _ => htable.resolve_eq operand.2]
      exact (ih (htable.not_define hentry hdefine) (drop_of_drop hrest)).keep hrest hdefine
    | true =>
      obtain ⟨name, value, rfl⟩ := instr.eq_define hdefine
      rw [expandFrom]
      cases hvalue : value.resolve definitions with
      | number n =>
        have hworth := hvalue
        rw [htable.resolve_eq, resolveAt_eq_number_iff] at hworth
        exact (ih (htable.define hentry hvalue) (drop_of_drop hrest)).skip hrest hdefine
          (resolvable_of_define hentry hworth)
      | name s =>
        rw [htable.resolve_eq, resolveAt_eq_name_iff] at hvalue
        obtain ⟨rfl, hnone⟩ := hvalue
        exact .unresolved (Nat.le_refl place) ⟨hentry, hnone⟩ fun later _ _ => by omega

/-- A program has one first definition that cannot be resolved, if it has any. -/
theorem ResolvesFrom.resolves (h : ResolvesFrom program 0 result) : Resolves program result := by
  cases h with
  | resolved hall =>
    refine ⟨fun error => ⟨fun h => ?_, ?_⟩, fun expanded => ?_⟩
    · cases h
    · rintro ⟨place, line, name, s, h, -⟩
      exact absurd h (hall place (Nat.zero_le place) line name s)
    · rw [Except.ok.injEq, forall₂_survives_iff]
      exact (and_iff_right fun place => hall place (Nat.zero_le place)).symm
  | @unresolved stop line name s hstop hunresolved hfirst =>
    have hfirst' : ∀ earlier < stop, Resolvable program earlier :=
      fun earlier => hfirst earlier (Nat.zero_le earlier)
    refine ⟨fun error => ⟨?_, ?_⟩, fun expanded => ⟨fun h => ?_, ?_⟩⟩
    · rintro ⟨⟩
      exact ⟨stop, line, name, s, hunresolved, hfirst', rfl⟩
    · rintro ⟨place, line', name', s', h, hbefore, rfl⟩
      have hplace : place = stop := by
        refine Nat.le_antisymm (Nat.le_of_not_lt fun hlt => ?_) (Nat.le_of_not_lt fun hlt => ?_)
        · exact hbefore stop hlt line name s hunresolved
        · exact hfirst' place hlt line' name' s' h
      subst hplace
      have heq := hunresolved.1.symm.trans h.1
      cases heq
      rfl
    · cases h
    · rintro ⟨hall, -⟩
      exact absurd hunresolved (hall stop line name s)

end

/-- **A name stands for its latest earlier definition.** The expansion of instructions with lines
fails exactly if a definition rests on a name that stands for nothing at its place, with an error at
the line of the first such definition; otherwise it keeps the instructions that are no definitions,
in order and with their lines, changed in nothing but their names, each of which is replaced by the
number that it stands for where it is, if it stands for one. Instructions without lines are expanded
with their places for lines. -/
theorem expand_latest :
    (∀ program, Resolves program (expand program)) ∧
      (∀ s instr, (Fault.unresolvedValue s instr).category? = some .malformedInstruction) ∧
      ∀ instrs, ∃ result, Resolves (numbered instrs) result ∧
        expandInstrs instrs = result.map fun expanded => expanded.map Prod.snd := by
  have hresolves (program : Numbered) : Resolves program (expand program) :=
    (expandFrom_resolves (TableAt.start program)).resolves
  refine ⟨hresolves, fun _ _ => rfl, fun instrs => ⟨_, hresolves (numbered instrs), ?_⟩⟩
  rw [expandInstrs]
  cases expand (numbered instrs) <;> rfl

/-- A later definition counts from its place on, and not for what was defined before. -/
example :
    expandInstrs [.define "a" (.number 1), .define "b" (.name "a"), .define "a" (.number 2),
        .add (.name "a") (.name "b"), .write (.name "c")] =
      .ok [.add (.number 2) (.number 1), .write (.name "c")] := by
  decide

end TapeCompiler.Asm
