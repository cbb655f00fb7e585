import TapeCompiler.Lowering.Variables
/-!
# Addresses of variables

Every occurrence of a variable in a tree has an address: the way down to it, by the numbers of the
statements in their blocks and of the parts in their statements. The condition of a statement is its
part 0, its first block is part 1 and its last one part 2, so the lexicographic order of addresses
is the order of the text. The names of a program are collected in this order and without gaps:
`occurrences` has all addresses with their names (`mem_occurrences`), in ascending order
(`ascending_occurrences`), and its names are those collected (`map_occurrences`).
-/
namespace TapeCompiler

/-- The way down to a variable. -/
abbrev Address := List Nat

/-- The name at an address in a condition. -/
def Condition.nameAt? (condition : Condition) : Address → Option String
  | [term] => condition[term]?.map Comparison.name
  | _ => none

mutual

/-- The name at an address in a statement. -/
def Statement.nameAt? : Statement → Address → Option String
  | .input name, [] | .output name, [] | .assign name _, [] => some name
  | .loop condition _, 0 :: address | .branch condition _, 0 :: address
  | .branchElse condition _ _, 0 :: address => condition.nameAt? address
  | .loop _ body, 1 :: address | .branch _ body, 1 :: address
  | .branchElse _ body _, 1 :: address => Block.nameAt? body address
  | .branchElse _ _ otherwise, 2 :: address => Block.nameAt? otherwise address
  | _, _ => none

/-- The name at an address in a block. -/
def Block.nameAt? (block : Block) : Address → Option String
  | [] => none
  | place :: address => block[place]?.bind (·.nameAt? address)

end

/-! ## All occurrences -/

/-- Occurrences in a part of a larger tree. -/
def under (part : Nat) (entries : List (Address × String)) : List (Address × String) :=
  entries.map fun (address, name) => (part :: address, name)

/-- The occurrences in a condition, by the numbers of the terms. -/
def Condition.occurrences (condition : Condition) : List (Address × String) :=
  condition.zipIdx.map fun (c, term) => ([term], c.name)

mutual

def Statement.occurrences : Statement → List (Address × String)
  | .input name | .output name | .assign name _ => [([], name)]
  | .move _ => []
  | .loop condition body | .branch condition body =>
    under 0 condition.occurrences ++ under 1 (Block.occurrencesFrom 0 body)
  | .branchElse condition body otherwise =>
    under 0 condition.occurrences ++ under 1 (Block.occurrencesFrom 0 body)
      ++ under 2 (Block.occurrencesFrom 0 otherwise)

/-- The occurrences in a block whose first statement has the number `place`. -/
def Block.occurrencesFrom (place : Nat) : Block → List (Address × String)
  | [] => []
  | statement :: rest =>
    under place statement.occurrences ++ Block.occurrencesFrom (place + 1) rest

end

/-- The addresses of all variables in a program, with their names, in the order of the text. -/
def Block.occurrences (program : Block) : List (Address × String) :=
  Block.occurrencesFrom 0 program

/-! ## The names -/

theorem map_under (part : Nat) (entries : List (Address × String)) :
    (under part entries).map Prod.snd = entries.map Prod.snd := by
  rw [under, List.map_map]
  rfl

theorem Condition.map_occurrences (condition : Condition) :
    condition.occurrences.map Prod.snd = condition.names := by
  have hcomp : Prod.snd ∘ (fun (c, term) => (([term] : Address), c.name)) =
      Comparison.name ∘ (Prod.fst : Comparison × Nat → Comparison) := rfl
  rw [occurrences, List.map_map, hcomp, ← List.map_map, List.zipIdx_map_fst, names]

mutual

theorem Statement.map_occurrences : ∀ statement : Statement,
    statement.occurrences.map Prod.snd = statement.names
  | .input _ | .output _ | .assign _ _ | .move _ => rfl
  | .loop condition body | .branch condition body => by
    simp only [Statement.occurrences, List.map_append, map_under, condition.map_occurrences,
      Block.map_occurrencesFrom body, Statement.names]
  | .branchElse condition body otherwise => by
    simp only [Statement.occurrences, List.map_append, map_under, condition.map_occurrences,
      Block.map_occurrencesFrom body, Block.map_occurrencesFrom otherwise, Statement.names]

theorem Block.map_occurrencesFrom : ∀ (block : Block) (place : Nat),
    (Block.occurrencesFrom place block).map Prod.snd = namesOf block
  | [], _ => rfl
  | statement :: rest, place => by
    rw [Block.occurrencesFrom, List.map_append, map_under, statement.map_occurrences,
      Block.map_occurrencesFrom rest, namesOf]

end

theorem Block.map_occurrences (program : Block) :
    (Block.occurrences program).map Prod.snd = namesOf program :=
  Block.map_occurrencesFrom program 0

/-! ## The addresses -/

section

variable {part place term : Nat} {entries : List (Address × String)} {address : Address}
  {name : String}

theorem mem_under : (address, name) ∈ under part entries ↔
    ∃ inner, address = part :: inner ∧ (inner, name) ∈ entries := by
  simp only [under, List.mem_map, Prod.exists, Prod.mk.injEq]
  constructor
  · rintro ⟨inner, _, hmem, rfl, rfl⟩
    exact ⟨inner, rfl, hmem⟩
  · rintro ⟨inner, rfl, hmem⟩
    exact ⟨inner, name, hmem, rfl, rfl⟩

theorem Condition.mem_occurrences {condition : Condition} :
    (address, name) ∈ condition.occurrences ↔ condition.nameAt? address = some name := by
  simp only [occurrences, List.mem_map, Prod.exists, Prod.mk.injEq, List.mk_mem_zipIdx_iff_getElem?]
  constructor
  · rintro ⟨c, term, hc, rfl, rfl⟩
    rw [nameAt?, hc]
    rfl
  · intro h
    unfold nameAt? at h
    split at h
    · next term =>
      obtain ⟨c, hc, rfl⟩ := Option.map_eq_some_iff.1 h
      exact ⟨c, term, hc, rfl, rfl⟩
    · cases h

theorem Block.exists_cons_nameAt? {block : Block} :
    (∃ i inner, address = i :: inner ∧ Block.nameAt? block (i :: inner) = some name) ↔
      Block.nameAt? block address = some name := by
  constructor
  · rintro ⟨i, inner, rfl, h⟩
    exact h
  · intro h
    cases address with
    | nil => simp [Block.nameAt?] at h
    | cons i inner => exact ⟨i, inner, rfl, h⟩

mutual

theorem Statement.mem_occurrences : ∀ (statement : Statement) {address : Address} {name : String},
    (address, name) ∈ statement.occurrences ↔ statement.nameAt? address = some name
  | .input x, address, _ | .output x, address, _ | .assign x _, address, _ => by
    cases address <;> simp [Statement.occurrences, Statement.nameAt?, eq_comm]
  | .move _, _, _ => by
    simp [Statement.occurrences, Statement.nameAt?]
  | .loop condition body, address, _ | .branch condition body, address, _ => by
    simp only [Statement.occurrences, List.mem_append, mem_under, Condition.mem_occurrences,
      Block.mem_occurrencesFrom body, Nat.zero_add, Block.exists_cons_nameAt?]
    match address with
    | [] | 0 :: _ | 1 :: _ | (_ + 2) :: _ => simp [Statement.nameAt?]
  | .branchElse condition body otherwise, address, _ => by
    simp only [Statement.occurrences, List.mem_append, mem_under, Condition.mem_occurrences,
      Block.mem_occurrencesFrom body, Block.mem_occurrencesFrom otherwise, Nat.zero_add,
      Block.exists_cons_nameAt?]
    match address with
    | [] | 0 :: _ | 1 :: _ | 2 :: _ | (_ + 3) :: _ => simp [Statement.nameAt?]

theorem Block.mem_occurrencesFrom : ∀ (block : Block) (place : Nat) {address : Address}
    {name : String}, (address, name) ∈ Block.occurrencesFrom place block ↔
      ∃ i inner, address = (place + i) :: inner ∧ Block.nameAt? block (i :: inner) = some name
  | [], _, _, _ => by
    simp [Block.occurrencesFrom, Block.nameAt?]
  | statement :: rest, place, address, name => by
    rw [Block.occurrencesFrom, List.mem_append, mem_under, Block.mem_occurrencesFrom rest]
    constructor
    · rintro (⟨inner, rfl, h⟩ | ⟨i, inner, rfl, h⟩)
      · exact ⟨0, inner, rfl, statement.mem_occurrences.1 h⟩
      · exact ⟨i + 1, inner, by rw [Nat.add_assoc, Nat.add_comm 1], h⟩
    · rintro ⟨_ | i, inner, rfl, h⟩
      · exact .inl ⟨inner, rfl, statement.mem_occurrences.2 h⟩
      · exact .inr ⟨i, inner, by rw [Nat.add_assoc, Nat.add_comm 1], h⟩

end

/-- The occurrences in a program are the names at its addresses. -/
theorem Block.mem_occurrences {program : Block} :
    (address, name) ∈ Block.occurrences program ↔ Block.nameAt? program address = some name := by
  simp only [Block.occurrences, Block.mem_occurrencesFrom program, Nat.zero_add,
    Block.exists_cons_nameAt?]

end

/-! ## The order -/

/-- Occurrences by ascending addresses. -/
def Ascending (entries : List (Address × String)) : Prop :=
  entries.Pairwise fun entry other => entry.1 < other.1

/-- Occurrences in parts of certain numbers. -/
def BeginIn (P : Nat → Prop) (entries : List (Address × String)) : Prop :=
  ∀ entry ∈ entries, ∃ part inner, entry.1 = part :: inner ∧ P part

section

variable {P : Nat → Prop} {part place : Nat} {entries first second : List (Address × String)}

theorem beginIn_under (h : P part) : BeginIn P (under part entries) := by
  rintro ⟨address, name⟩ hmem
  obtain ⟨inner, rfl, -⟩ := mem_under.1 hmem
  exact ⟨part, inner, rfl, h⟩

theorem BeginIn.append (hfirst : BeginIn P first) (hsecond : BeginIn P second) :
    BeginIn P (first ++ second) := List.forall_mem_append.2 ⟨hfirst, hsecond⟩

theorem Block.beginIn_occurrencesFrom (block : Block) (place : Nat) :
    BeginIn (place ≤ ·) (Block.occurrencesFrom place block) := by
  rintro ⟨address, name⟩ hmem
  obtain ⟨i, inner, rfl, -⟩ := (Block.mem_occurrencesFrom block place).1 hmem
  exact ⟨place + i, inner, rfl, Nat.le_add_right place i⟩

theorem Ascending.under (h : Ascending entries) (part : Nat) : Ascending (under part entries) :=
  List.pairwise_map.2 (h.imp List.cons_lt_cons_self.2)

/-- What stands in later parts comes later. -/
theorem Ascending.append (hfirst : Ascending first) (hsecond : Ascending second) (last : Nat)
    (hbefore : BeginIn (· ≤ last) first) (hafter : BeginIn (last < ·) second) :
    Ascending (first ++ second) := by
  refine List.pairwise_append.2 ⟨hfirst, hsecond, fun entry hentry other hother => ?_⟩
  obtain ⟨i, inner, hi, hle⟩ := hbefore entry hentry
  obtain ⟨j, inner', hj, hlt⟩ := hafter other hother
  rw [hi, hj]
  exact List.cons_lt_cons_iff.2 (.inl (Nat.lt_of_le_of_lt hle hlt))

theorem Condition.ascending_occurrences (condition : Condition) :
    Ascending condition.occurrences := by
  have hterms : (condition.zipIdx.map Prod.snd).Pairwise (· < ·) := by
    rw [List.zipIdx_map_snd]
    exact List.pairwise_lt_range'
  refine List.pairwise_map.2 ((List.pairwise_map.1 hterms).imp fun {entry other} hlt => ?_)
  exact List.cons_lt_cons_iff.2 (.inl hlt)

end

mutual

theorem Statement.ascending_occurrences : ∀ statement : Statement, Ascending statement.occurrences
  | .input _ | .output _ | .assign _ _ => List.pairwise_singleton _ _
  | .move _ => .nil
  | .loop condition body | .branch condition body => by
    have hcondition := condition.ascending_occurrences.under 0
    have hbody := (Block.ascending_occurrencesFrom body 0).under 1
    exact hcondition.append hbody 0 (beginIn_under (Nat.le_refl 0)) (beginIn_under Nat.zero_lt_one)
  | .branchElse condition body otherwise => by
    have hcondition := condition.ascending_occurrences.under 0
    have hbody := (Block.ascending_occurrencesFrom body 0).under 1
    have hotherwise := (Block.ascending_occurrencesFrom otherwise 0).under 2
    have hfirst := hcondition.append hbody 0 (beginIn_under (Nat.le_refl 0))
      (beginIn_under Nat.zero_lt_one)
    have hbefore : BeginIn (· ≤ 1)
        (under 0 condition.occurrences ++ under 1 (Block.occurrencesFrom 0 body)) :=
      BeginIn.append (beginIn_under (Nat.zero_le 1)) (beginIn_under (Nat.le_refl 1))
    exact hfirst.append hotherwise 1 hbefore (beginIn_under Nat.one_lt_two)

theorem Block.ascending_occurrencesFrom : ∀ (block : Block) (place : Nat),
    Ascending (Block.occurrencesFrom place block)
  | [], _ => .nil
  | statement :: rest, place =>
    (statement.ascending_occurrences.under place).append
      (Block.ascending_occurrencesFrom rest (place + 1)) place (beginIn_under (Nat.le_refl place))
      (Block.beginIn_occurrencesFrom rest (place + 1))

end

/-- The occurrences in a program are listed in the order of the text. -/
theorem Block.ascending_occurrences (program : Block) : Ascending (Block.occurrences program) :=
  Block.ascending_occurrencesFrom program 0

end TapeCompiler
