import Mathlib.Data.List.Forall2
import TapeCompiler.Proofs.Lowering.FirstOccurrence
import TapeCompiler.Proofs.Lowering.Listing
import TapeCompiler.Proofs.Lowering.OverCells
/-!
# Allocation of cells

The names of a row come from two walks, one through the tree of a program and one through its code,
and the expansion of definitions puts their offsets back into the code. The three agree for every
program without reserved names (`generate_allocates`): the row has the variables by their first
addresses, and then the internal cells by their first places in the code; its symbols number them
from zero; and in the expanded code every cell stands as its offset and every move as the width.
-/
namespace TapeCompiler

open TapeCompiler.Asm

/-! ## Layouts -/

namespace Layout

/-- Names that come later get their cells behind those of the names before them. -/
theorem names_ofNames_append (first rest : List String) :
    (ofNames (first ++ rest)).names =
      (ofNames first).names ++ (ofNames (rest.filter fun name => name ∉ first)).names := by
  induction rest using List.reverseRecOn with
  | nil =>
    rw [List.append_nil]
    exact (List.append_nil _).symm
  | append_singleton rest name ih =>
    rw [← List.append_assoc, ofNames_concat, List.filter_append]
    by_cases hfirst : name ∈ first
    · have hmem : name ∈ (ofNames (first ++ rest)).names :=
        mem_names_ofNames.2 (List.mem_append_left _ hfirst)
      rw [names_insert_of_mem hmem, ih, List.filter_cons_of_neg (by simpa using hfirst),
        List.filter_nil, List.append_nil]
    · have hmem : name ∈ (ofNames (first ++ rest)).names ↔
          name ∈ (ofNames (rest.filter fun name => name ∉ first)).names := by
        simp [mem_names_ofNames, hfirst]
      rw [List.filter_cons_of_pos (by simpa using hfirst), List.filter_nil, ofNames_concat]
      by_cases hname : name ∈ (ofNames (first ++ rest)).names
      · rw [names_insert_of_mem hname, names_insert_of_mem (hmem.1 hname), ih]
      · rw [names_insert_of_not_mem hname, names_insert_of_not_mem (hname ∘ hmem.2), ih,
          List.append_assoc]

/-- Names without repetition have cells in their own order. -/
theorem names_ofNames_of_nodup {names : List String} (h : names.Nodup) :
    (ofNames names).names = names := by
  induction names using List.reverseRecOn with
  | nil => rfl
  | append_singleton rest name ih =>
    obtain ⟨hrest, -, hname⟩ := List.nodup_append.1 h
    have hnew : name ∉ (ofNames rest).names :=
      fun hmem => hname name (mem_names_ofNames.1 hmem) name List.mem_cons_self rfl
    rw [ofNames_concat, names_insert_of_not_mem hnew, ih hrest]

end Layout

/-! ## The names of a row -/

/-- The names of the cells that code touches, in the order of the code. -/
def Code.cellNames (code : Code) : List String := code.flatMap Instr.cellNames

section

variable {program : Block} {x : String}

/-- The code of a program is over its variables and internal cells. -/
theorem overCells_program (program : Block) :
    Code.OverCells (fun x => x ∈ namesOf program ∨ IsInternal x) (lowerBlock 0 program) :=
  overCells_lowerBlock program 0 fun _ => Block.variable_or_internal

theorem names_layoutOf (annotate : Bool) (program : Block) :
    (layoutOf program).names = (Layout.ofNames (namesOf program)).names ++
      (Layout.ofNames ((lowerProgram annotate program).cellNames.filter
        fun name => name ∉ (Layout.ofNames (namesOf program)).names)).names := by
  rw [layoutOf, Layout.ofCode, Layout.names_ofNames_append,
    Layout.names_ofNames_of_nodup (Layout.nodup _), Code.cellNames, flatMap_cellNames_lowerProgram]

/-- What is touched and is no variable is an internal cell. -/
theorem firstOccurrences_internal (hnames : ∀ x ∈ namesOf program, isReserved x = false)
    (annotate : Bool) :
    FirstOccurrences
      (fun (place : Nat) name =>
        (lowerProgram annotate program).cellNames[place]? = some name ∧ IsInternal name)
      (Layout.ofNames ((lowerProgram annotate program).cellNames.filter
        fun name => name ∉ (Layout.ofNames (namesOf program)).names)).names := by
  refine (firstOccurrences_filter _ _).congr fun place name => ?_
  refine and_congr_right fun hplace => ?_
  rw [decide_eq_true_iff, Layout.mem_names_ofNames]
  have hmem := List.mem_of_getElem? hplace
  rw [Code.cellNames, flatMap_cellNames_lowerProgram, List.mem_flatMap] at hmem
  obtain ⟨instr, hinstr, hname⟩ := hmem
  constructor
  · exact ((overCells_program program instr hinstr).cellNames name hname).resolve_left
  · intro hinternal hmem
    exact ne_of_isReserved (hnames name hmem) hinternal.isReserved rfl

theorem touches_header_append (layout : Layout) (code : Code) :
    Code.Touches (layout.header ++ code) x ↔ code.Touches x := by
  refine touches_append.trans (or_iff_right ?_)
  rintro ⟨instr, hinstr, hx⟩
  rw [Layout.header_eq, defines, List.mem_map] at hinstr
  obtain ⟨pair, -, rfl⟩ := hinstr
  exact absurd hx List.not_mem_nil

theorem touches_lowerProgram (annotate : Bool) :
    (lowerProgram annotate program).Touches x ↔ (lowerBlock 0 program).Touches x := by
  rw [Code.Touches, ← List.mem_flatMap, flatMap_cellNames_lowerProgram, List.mem_flatMap,
    Code.Touches]

/-- The two walks find the same names. -/
theorem mem_layoutOf_iff : x ∈ (layoutOf program).names ↔ (lowerBlock 0 program).Touches x := by
  rw [mem_names_layoutOf]
  exact or_iff_right_of_imp (touches_lowerBlock program 0)

end

/-! ## The expanded code -/

/-- What the expansion makes of an operand: the offset of a cell, the width of a row for its name,
and a number as it is. -/
inductive Layout.StandsFor (layout : Layout) : Role × Ref → Role × Ref → Prop
  | cell {x : String} {offset : Nat} (h : layout.offset? x = some offset)
    (hlt : offset < layout.width) : StandsFor layout (.cell, .name x) (.cell, .number offset)
  | width : StandsFor layout (.amount, .name rowWidthName) (.amount, .number layout.width)
  | amount (n : Int) : StandsFor layout (.amount, .number n) (.amount, .number n)

/-- An instruction and what the expansion makes of it: the same form, its operands replaced. -/
structure Layout.Expands (layout : Layout) (instr expanded : Instr Ref) : Prop where
  form : expanded.map (fun _ => ()) = instr.map fun _ => ()
  operands : List.Forall₂ layout.StandsFor instr.operands expanded.operands

section

variable {layout : Layout} {P : String → Prop} {instr expanded : Instr Ref} {program : Block}
  {annotate : Bool}

theorem Layout.StandsFor.isNumber {operand number : Role × Ref}
    (h : layout.StandsFor operand number) : number.2.isNumber = true := by
  cases h <;> rfl

theorem Layout.Expands.isNumber (h : layout.Expands instr expanded) :
    ∀ operand ∈ expanded.operands, operand.2.isNumber = true :=
  ((List.forall₂_and_left _ _).1 (h.operands.flip.imp fun _ _ hstands =>
    ⟨hstands.isNumber, hstands⟩)).1

theorem Layout.standsFor_resolve {operand : Role × Ref} (h : OperandOver P operand)
    (hcell : ∀ x, operand = (.cell, .name x) → x ∈ layout.names ∧ x ≠ rowWidthName) :
    layout.StandsFor operand (operand.1, operand.2.resolve layout.definitions.reverse) := by
  cases h with
  | @cell x hx =>
    obtain ⟨hmem, hne⟩ := hcell x rfl
    obtain ⟨offset, hoffset⟩ := exists_offset? hmem
    rw [Ref.resolve, lookup_definitions_cell hne hoffset]
    exact .cell hoffset (offset?_lt_width hoffset)
  | amount n => exact .amount n
  | width =>
    rw [Ref.resolve, lookup_definitions_width]
    exact .width

theorem expands_lowerProgram (hnames : ∀ x ∈ namesOf program, isReserved x = false)
    (hinstr : instr ∈ lowerProgram annotate program) :
    (layoutOf program).Expands instr
      (instr.map (Ref.resolve (layoutOf program).definitions.reverse)) where
  form := Instr.map_map _ _ _
  operands := by
    rw [Instr.operands_map, List.forall₂_map_right_iff, List.forall₂_same]
    intro operand hoperand
    rcases mem_lowerProgram hinstr with ⟨statement, -, rfl⟩ | hinstr
    · exact absurd hoperand List.not_mem_nil
    · have hover := overCells_program program instr hinstr
      refine Layout.standsFor_resolve (hover.operands operand hoperand) ?_
      rintro x rfl
      have hx := mem_cellNames_iff.2 hoperand
      refine ⟨mem_layoutOf_iff.2 ⟨instr, hinstr, hx⟩, ?_⟩
      rcases hover.cellNames x hx with hx | hx
      · exact ne_of_isReserved (hnames x hx) isReserved_rowWidthName
      · exact hx.ne_rowWidthName

/-- The code of a program moves by the width of a row. -/
theorem Asm.Instr.OverCells.move (h : instr.OverCells P) {f : Ref → Ref} {count : Ref}
    (hmove : instr.map f = .right count ∨ instr.map f = .left count) :
    count = f (.name rowWidthName) := by
  cases instr with
  | right given | left given =>
    cases given with
    | number n => exact absurd h id
    | name x =>
      obtain rfl : x = rowWidthName := h
      simpa [Instr.map, eq_comm] using hmove
  | define | add | sub | set | openLoop | closeLoop | copy | read | write | comment =>
    simp [Instr.map] at hmove

theorem not_define_lowerProgram (hinstr : instr ∈ lowerProgram annotate program) :
    instr.isDefine = false := by
  rcases mem_lowerProgram hinstr with ⟨statement, -, rfl⟩ | hinstr
  · rfl
  · exact not_define_lowerBlock hinstr

/-- The code of a program expands to itself with numbers for names. -/
theorem expandInstrs_listing (annotate : Bool) (program : Block) :
    expandInstrs ((layoutOf program).header ++ lowerProgram annotate program) =
      .ok ((lowerProgram annotate program).map
        (Instr.map (Ref.resolve (layoutOf program).definitions.reverse))) := by
  rw [Layout.header_eq]
  have hbody : ∀ instr ∈ lowerProgram annotate program, instr.isDefine = false :=
    fun _ => not_define_lowerProgram
  obtain ⟨expanded, hexpand, hsnd⟩ := expand_defines (map_snd_numbered _) hbody
  rw [expandInstrs, hexpand, ← hsnd]
  rfl

end

/-! ## Listings -/

/-- The row of a listing has one cell for each name that the program needs, and the code of the
listing works on these cells. -/
structure Listing.Allocates (listing : Listing) (annotate : Bool) (program : Block) : Prop where
  /-- The variables come first and then the internal cells, both by their first places. -/
  names : ∃ own internal, listing.layout.names = own ++ internal ∧
    FirstOccurrences (Block.NamedAt program) own ∧
    FirstOccurrences (fun (place : Nat) name =>
      (lowerProgram annotate program).cellNames[place]? = some name ∧ IsInternal name) internal
  nodup : listing.layout.names.Nodup
  /-- The symbols are the names of the row. -/
  symbols_fst : listing.layout.symbols.map Prod.fst = listing.layout.names
  /-- They are numbered from zero, without gaps. -/
  symbols_snd : listing.layout.symbols.map Prod.snd = List.range listing.layout.width
  width : listing.layout.width = listing.layout.symbols.length
  /-- The offset of a name is its number. -/
  lookup : ∀ name offset, listing.layout.offset? name = some offset ↔
    (name, offset) ∈ listing.layout.symbols
  /-- The cells are those that the code touches. -/
  touched : ∀ name, name ∈ listing.layout.names ↔ listing.code.Touches name
  header : listing.code =
    listing.layout.symbols.map (fun (name, offset) => .define name (.number offset)) ++
      [.define rowWidthName (.number listing.layout.width)] ++ lowerProgram annotate program
  expansion : ∃ expanded, expandInstrs listing.code = .ok expanded ∧
    List.Forall₂ listing.layout.Expands (lowerProgram annotate program) expanded ∧
    (∀ instr ∈ expanded, ∀ operand ∈ instr.operands, operand.2.isNumber = true) ∧
    ∀ instr ∈ expanded, ∀ count, instr = .right count ∨ instr = .left count →
      count = .number listing.layout.width

theorem allocates_layoutOf {program : Block} (hnames : ∀ x ∈ namesOf program, isReserved x = false)
    (annotate : Bool) :
    (Listing.mk (layoutOf program) ((layoutOf program).header ++ lowerProgram annotate program))
      |>.Allocates annotate program where
  names := ⟨_, _, names_layoutOf annotate program, Block.firstOccurrences_namesOf program,
    firstOccurrences_internal hnames annotate⟩
  nodup := (layoutOf program).nodup
  symbols_fst := List.zipIdx_map_fst 0 _
  symbols_snd := (List.zipIdx_map_snd 0 _).trans List.range_eq_range'.symm
  width := List.length_zipIdx.symm
  lookup _ _ := Layout.offset?_eq_some_iff
  touched name := by
    rw [touches_header_append, touches_lowerProgram, mem_layoutOf_iff]
  header := rfl
  expansion := by
    refine ⟨_, expandInstrs_listing annotate program, ?_, ?_, ?_⟩
    · rw [List.forall₂_map_right_iff, List.forall₂_same]
      exact fun instr hinstr => expands_lowerProgram hnames hinstr
    · rw [List.forall_mem_map]
      exact fun instr hinstr => (expands_lowerProgram hnames hinstr).isNumber
    · rw [List.forall_mem_map]
      intro instr hinstr count hmove
      rcases mem_lowerProgram hinstr with ⟨statement, -, rfl⟩ | hinstr
      · simp [Instr.map] at hmove
      · rw [(overCells_program program instr hinstr).move hmove, Ref.resolve,
          Layout.lookup_definitions_width]

/-- **Every name has one cell, and the code agrees.** The listing of a program without reserved
names, annotated or not, has a row with the variables of the tree and then the internal cells of the
code, by first places and without repetition; the symbols number them from zero and are exactly what
the code touches; the code begins with their definitions and that of the width, and its expansion has
no name left: every cell has become its offset below the width, and every move goes by the width. -/
theorem generate_allocates (annotate : Bool) (program : Block)
    (hnames : ∀ address name, Block.NamedAt program address name → isReserved name = false) :
    ∃ listing, generate annotate program = .ok listing ∧ listing.Allocates annotate program := by
  refine ⟨_, generate_eq (reservedName?_eq_none_iff.2 hnames) annotate, allocates_layoutOf ?_ _⟩
  intro x hx
  obtain ⟨address, hat⟩ := Block.mem_namesOf_iff.1 hx
  exact hnames address x hat

/-- A branch with both parts: its flags come behind the variables, in the order of the code. -/
theorem generate_allocates_branch : ∃ listing,
    generate true [.branchElse [⟨"x", .equal, 1⟩] [.output "y"] [.move .right]] = .ok listing ∧
      listing.Allocates true [.branchElse [⟨"x", .equal, 1⟩] [.output "y"] [.move .right]] ∧
      listing.layout.symbols = [("x", 0), ("y", 1), ("__else_0", 2), ("__eq_0_0", 3),
        ("__if_0_0", 4), ("__tmp", 5)] := by
  obtain ⟨listing, hgenerate, hallocates⟩ := generate_allocates true
    [.branchElse [⟨"x", .equal, 1⟩] [.output "y"] [.move .right]] (reservedName?_eq_none_iff.1 rfl)
  have hsymbols := congrArg (Except.map fun listing => listing.layout.symbols) hgenerate
  exact ⟨listing, hgenerate, hallocates, (Except.ok.inj hsymbols).symm⟩

end TapeCompiler
