import Mathlib.Data.List.Induction
import Mathlib.Data.List.Sort
import TapeCompiler.Proofs.Source.Address
/-!
# First occurrences

What occurs at which places determines the list of the names in the order of their first occurrences
(`FirstOccurrences.unique`). A layout of names that are listed by their places has them in this order
(`firstOccurrences_ofNames`). So the variables of a program are those at the addresses of its tree,
by first addresses, and it is refused for the reserved name at the first address that has one
(`variablesOf_exact`).
-/
namespace TapeCompiler

/-- A list has all names that occur, each once, in the order of their first places. -/
structure FirstOccurrences {κ : Type} [LT κ] (occurs : κ → String → Prop) (names : List String) :
    Prop where
  nodup : names.Nodup
  mem_iff : ∀ name, name ∈ names ↔ ∃ place, occurs place name
  ordered : names.Pairwise fun first second =>
    ∃ place, occurs place first ∧ ∀ later, occurs later second → place < later

section

variable {κ : Type} [LT κ] {occurs occurs' : κ → String → Prop} {names others : List String}

theorem FirstOccurrences.congr (h : FirstOccurrences occurs names)
    (hiff : ∀ place name, occurs place name ↔ occurs' place name) :
    FirstOccurrences occurs' names := by
  have heq : occurs = occurs' := funext₂ fun place name => propext (hiff place name)
  rwa [← heq]

/-- Of two names one comes first, so there is only one such list. -/
theorem FirstOccurrences.unique [Std.Asymm fun place later : κ => place < later]
    (h : FirstOccurrences occurs names) (h' : FirstOccurrences occurs others) : names = others := by
  have hperm : names.Perm others := (List.perm_ext_iff_of_nodup h.nodup h'.nodup).2
    fun name => (h.mem_iff name).trans (h'.mem_iff name).symm
  refine hperm.eq_of_pairwise ?_ h.ordered h'.ordered
  rintro first second - - ⟨place, hplace, hbefore⟩ ⟨other, hother, hbefore'⟩
  exact absurd (hbefore other hother) (Std.Asymm.asymm _ _ (hbefore' place hplace))

end

/-! ## Names listed by their places -/

theorem Layout.ofNames_concat (names : List String) (name : String) :
    ofNames (names ++ [name]) = (ofNames names).insert name := List.foldl_append

section

variable {κ : Type} [LT κ] {entries : List (κ × String)}

/-- Names at ascending places come into a layout by their first places. -/
theorem ordered_ofNames (hsorted : entries.Pairwise fun entry other => entry.1 < other.1) :
    (Layout.ofNames (entries.map Prod.snd)).names.Pairwise fun first second =>
      ∃ place, (place, first) ∈ entries ∧ ∀ later, (later, second) ∈ entries → place < later := by
  induction entries using List.reverseRecOn with
  | nil => exact .nil
  | append_singleton entries entry ih =>
    obtain ⟨last, name⟩ := entry
    obtain ⟨hentries, -, hlast⟩ := List.pairwise_append.1 hsorted
    have hbefore : ∀ {place first}, (place, first) ∈ entries → place < last :=
      fun hmem => hlast _ hmem _ List.mem_cons_self
    have hkept : (Layout.ofNames (entries.map Prod.snd)).names.Pairwise fun first second =>
        ∃ place, (place, first) ∈ entries ++ [(last, name)] ∧
          ∀ later, (later, second) ∈ entries ++ [(last, name)] → place < later := by
      refine (ih hentries).imp ?_
      rintro first second ⟨place, hplace, hfirst⟩
      refine ⟨place, List.mem_append_left _ hplace, fun later hlater => ?_⟩
      rcases List.mem_append.1 hlater with hlater | hlater
      · exact hfirst later hlater
      · obtain ⟨rfl, rfl⟩ := Prod.mk.inj (List.mem_singleton.1 hlater)
        exact hbefore hplace
    rw [List.map_append, List.map_singleton, Layout.ofNames_concat]
    by_cases hname : name ∈ (Layout.ofNames (entries.map Prod.snd)).names
    · rw [Layout.names_insert_of_mem hname]
      exact hkept
    · rw [Layout.names_insert_of_not_mem hname]
      refine List.pairwise_append.2 ⟨hkept, List.pairwise_singleton _ _, ?_⟩
      rintro first hfirst _ hlater
      rw [List.mem_singleton.1 hlater]
      obtain ⟨⟨place, _⟩, hplace, rfl⟩ := List.mem_map.1 (Layout.mem_names_ofNames.1 hfirst)
      refine ⟨place, List.mem_append_left _ hplace, fun later hlater => ?_⟩
      rcases List.mem_append.1 hlater with hlater | hlater
      · exact absurd (Layout.mem_names_ofNames.2 (List.mem_map_of_mem hlater)) hname
      · obtain ⟨rfl, -⟩ := Prod.mk.inj (List.mem_singleton.1 hlater)
        exact hbefore hplace

theorem firstOccurrences_ofNames (hsorted : entries.Pairwise fun entry other => entry.1 < other.1) :
    FirstOccurrences (fun place name => (place, name) ∈ entries)
      (Layout.ofNames (entries.map Prod.snd)).names where
  nodup := Layout.nodup _
  mem_iff name := by
    rw [Layout.mem_names_ofNames, List.mem_map]
    constructor
    · rintro ⟨⟨place, _⟩, hmem, rfl⟩
      exact ⟨place, hmem⟩
    · rintro ⟨place, hmem⟩
      exact ⟨_, hmem, rfl⟩
  ordered := ordered_ofNames hsorted

/-- Some names of a list come into a layout by their first places in the list. -/
theorem firstOccurrences_filter (names : List String) (kept : String → Bool) :
    FirstOccurrences (fun (place : Nat) name => names[place]? = some name ∧ kept name = true)
      (Layout.ofNames (names.filter kept)).names := by
  have hfst : (names.zipIdx.map Prod.swap).map Prod.fst = List.range names.length := by
    rw [List.map_map, List.range_eq_range']
    exact List.zipIdx_map_snd 0 names
  have hsnd : (names.zipIdx.map Prod.swap).map Prod.snd = names := by
    rw [List.map_map]
    exact List.zipIdx_map_fst 0 names
  have hsorted : (names.zipIdx.map Prod.swap).Pairwise fun entry other => entry.1 < other.1 := by
    rw [← List.pairwise_map (f := Prod.fst) (R := fun place later => place < later), hfst]
    exact List.pairwise_lt_range
  have hfilter := List.filter_map (f := Prod.snd) (p := kept) (l := names.zipIdx.map Prod.swap)
  rw [hsnd] at hfilter
  rw [hfilter]
  refine (firstOccurrences_ofNames (hsorted.filter _)).congr fun place name => ?_
  rw [List.mem_filter, List.mem_map]
  refine and_congr_left fun _ => ?_
  rw [← List.mk_mem_zipIdx_iff_getElem?]
  constructor
  · rintro ⟨⟨_, _⟩, hmem, heq⟩
    cases heq
    exact hmem
  · intro hmem
    exact ⟨_, hmem, rfl⟩

/-- Of names at ascending places the first that is looked for has the first such place. -/
theorem find?_eq_some_iff_first [Std.Asymm fun place later : κ => place < later]
    (hsorted : entries.Pairwise fun entry other => entry.1 < other.1) {sought : String → Bool}
    {name : String} :
    (entries.map Prod.snd).find? sought = some name ↔
      ∃ place, (place, name) ∈ entries ∧ sought name = true ∧
        ∀ earlier < place, ∀ other, (earlier, other) ∈ entries → sought other = false := by
  rw [List.find?_eq_some_iff_append]
  constructor
  · rintro ⟨hname, before, after, heq, hbefore⟩
    obtain ⟨firsts, rest, rfl, rfl, hrest⟩ := List.map_eq_append_iff.1 heq
    obtain ⟨⟨place, _⟩, lasts, rfl, rfl, -⟩ := List.map_eq_cons_iff.1 hrest
    obtain ⟨-, hlasts, -⟩ := List.pairwise_append.1 hsorted
    refine ⟨place, List.mem_append_right _ List.mem_cons_self, hname, ?_⟩
    intro earlier hearlier other hmem
    rcases List.mem_append.1 hmem with hmem | hmem
    · simpa using hbefore _ (List.mem_map_of_mem hmem)
    · -- it stands before `place`, and so not behind it
      rcases List.mem_cons.1 hmem with hmem | hmem
      · obtain ⟨rfl, -⟩ := Prod.mk.inj hmem
        exact absurd hearlier (Std.Asymm.asymm _ _ hearlier)
      · exact absurd hearlier (Std.Asymm.asymm _ _ (List.rel_of_pairwise_cons hlasts hmem))
  · rintro ⟨place, hmem, hname, hfirst⟩
    obtain ⟨firsts, lasts, rfl⟩ := List.append_of_mem hmem
    obtain ⟨-, -, hbefore⟩ := List.pairwise_append.1 hsorted
    refine ⟨hname, firsts.map Prod.snd, lasts.map Prod.snd, List.map_append, ?_⟩
    rw [List.forall_mem_map]
    rintro ⟨earlier, other⟩ hearlier
    rw [hfirst earlier (hbefore _ hearlier _ List.mem_cons_self) other
      (List.mem_append_left _ hearlier)]
    rfl

end

/-! ## The variables of a program -/

/-- A name stands at an address of a program. -/
def Block.NamedAt (program : Block) (address : Address) (name : String) : Prop :=
  Block.nameAt? program address = some name

section

variable {program : Block} {name : String}

theorem Block.firstOccurrences_namesOf (program : Block) :
    FirstOccurrences (Block.NamedAt program) (Layout.ofNames (namesOf program)).names := by
  rw [← Block.map_occurrences]
  exact (firstOccurrences_ofNames (Block.ascending_occurrences program)).congr
    fun _ _ => Block.mem_occurrences

theorem Block.mem_namesOf_iff :
    name ∈ namesOf program ↔ ∃ address, Block.NamedAt program address name :=
  Layout.mem_names_ofNames.symm.trans ((Block.firstOccurrences_namesOf program).mem_iff name)

theorem reservedName?_eq_some_iff :
    reservedName? program = some name ↔
      ∃ address, Block.NamedAt program address name ∧ isReserved name = true ∧
        ∀ earlier < address, ∀ other, Block.NamedAt program earlier other →
          isReserved other = false := by
  rw [reservedName?, ← Block.map_occurrences,
    find?_eq_some_iff_first (Block.ascending_occurrences program)]
  simp only [Block.mem_occurrences, Block.NamedAt]

theorem isSome_reservedName? :
    (reservedName? program).isSome ↔
      ∃ address name, Block.NamedAt program address name ∧ isReserved name = true := by
  simp only [reservedName?, List.find?_isSome, Block.mem_namesOf_iff]
  constructor
  · rintro ⟨name, ⟨address, hname⟩, hreserved⟩
    exact ⟨address, name, hname, hreserved⟩
  · rintro ⟨address, name, hname, hreserved⟩
    exact ⟨name, ⟨address, hname⟩, hreserved⟩

theorem reservedName?_eq_none_iff :
    reservedName? program = none ↔
      ∀ address name, Block.NamedAt program address name → isReserved name = false := by
  rw [← Option.not_isSome_iff_eq_none, isSome_reservedName?]
  simp only [not_exists, not_and, Bool.not_eq_true]

theorem variablesOf_eq_error_iff :
    variablesOf program = .error name ↔ reservedName? program = some name := by
  rw [variablesOf]
  cases reservedName? program <;> simp

theorem variablesOf_eq_ok_iff {names : List String} :
    variablesOf program = .ok names ↔
      reservedName? program = none ∧ (Layout.ofNames (namesOf program)).names = names := by
  rw [variablesOf]
  cases reservedName? program <;> simp

end

/-- **Variables are found by their occurrences.** A program is refused exactly if a variable at any
address of its tree is reserved, and then for the name at the first such address. Otherwise its
variables are those at the addresses of its tree, each once, by their first addresses. -/
theorem variablesOf_exact (program : Block) :
    ((∃ name, variablesOf program = .error name) ↔
      ∃ address name, Block.NamedAt program address name ∧ isReserved name = true) ∧
    (∀ name, variablesOf program = .error name ↔
      ∃ address, Block.NamedAt program address name ∧ isReserved name = true ∧
        ∀ earlier < address, ∀ other, Block.NamedAt program earlier other →
          isReserved other = false) ∧
    ∀ names, variablesOf program = .ok names ↔
      (∀ address name, Block.NamedAt program address name → isReserved name = false) ∧
        FirstOccurrences (Block.NamedAt program) names := by
  refine ⟨?_, fun name => variablesOf_eq_error_iff.trans reservedName?_eq_some_iff, fun names => ?_⟩
  · simp only [variablesOf_eq_error_iff, ← Option.isSome_iff_exists, isSome_reservedName?]
  · have hfirst := Block.firstOccurrences_namesOf program
    rw [variablesOf_eq_ok_iff, reservedName?_eq_none_iff]
    refine and_congr_right fun _ => ⟨?_, hfirst.unique⟩
    rintro rfl
    exact hfirst

/-- Conditions come before blocks, and the first block before the other one. -/
example :
    variablesOf [.output "y", .assign "x" 1,
        .branchElse [⟨"z", .equal, 1⟩] [.input "w"] [.output "y"]] = .ok ["y", "x", "z", "w"] := by
  rfl

end TapeCompiler
