import TapeCompiler.Lowering.Generate
import TapeCompiler.Proofs.Asm.Expansion
import TapeCompiler.Proofs.Asm.Rendering
import TapeCompiler.Proofs.Lowering.CellNames
import TapeCompiler.Proofs.Lowering.OverCells
import TapeCompiler.Proofs.Lowering.RowsOnTape
/-!
# The listing of a program

The header of a listing defines every name in its body, so the text of a listing is assembled to the
code of the body with offsets for names, if all these numbers can be read and counted
(`assemble_text_iff`). They can on a row of fewer than `Asm.countLimit` cells (`assemble_text_ok`).
-/
namespace TapeCompiler

open TapeCompiler.Asm TapeCompiler.Text

/-! ## Operands of generated instructions -/

/-- The operands of generated instructions. -/
def Asm.Ref.Generated (cell : String → Prop) : Ref → Prop
  | .number n => 0 ≤ n ∧ n ≤ 255
  | .name x => cell x ∨ x = rowWidthName

section

variable {P Q : String → Prop} {instr : Instr Ref}

theorem Asm.Instr.Generated.operands (h : instr.Generated P) :
    ∀ operand ∈ instr.operands, operand.2.Generated P := by
  unfold Instr.Generated at h
  split at h
  · exact List.forall_mem_cons.2 ⟨.inl h.1, List.forall_mem_singleton.2 h.2⟩
  · exact List.forall_mem_cons.2 ⟨.inl h.1, List.forall_mem_singleton.2 h.2⟩
  · exact List.forall_mem_singleton.2 (.inr h)
  · exact List.forall_mem_singleton.2 (.inr h)
  · exact List.forall_mem_singleton.2 (.inl h)
  · exact List.forall_mem_singleton.2 (.inl h)
  · exact List.forall_mem_singleton.2 (.inl h)
  · exact List.forall_mem_singleton.2 (.inl h)
  · obtain ⟨hx, y, names, rfl, hz⟩ := h
    simp only [Instr.operands, List.forall_mem_cons, List.forall_mem_map]
    exact ⟨.inl hx, .inl (hz y List.mem_cons_self).1,
      fun z hmem => .inl (hz z (List.mem_cons_of_mem _ hmem)).1⟩
  · exact absurd h id

theorem Asm.Instr.Generated.written (h : instr.Generated P)
    (hP : ∀ x, P x → isName x.toList = true) : instr.Written where
  refs := by
    rw [Instr.refs, List.forall_mem_map]
    intro operand hmem
    have hoperand := h.operands operand hmem
    obtain ⟨role, ref⟩ := operand
    cases ref with
    | number n => exact hoperand.1
    | name x =>
      rcases hoperand with hx | rfl
      · exact hP x hx
      · exact isName_rowWidthName
  form := by
    unfold Instr.Generated at h
    split at h <;> first | trivial | skip
    · obtain ⟨-, y, names, rfl, -⟩ := h
      exact List.cons_ne_nil _ _

end

/-! ## Definitions of offsets -/

namespace Layout

variable {layout : Layout} {x : String} {off : Nat}

/-- The names that the header of a listing defines, with their numbers. -/
def definitions (layout : Layout) : List (String × Int) :=
  layout.symbols.map (fun (name, offset) => (name, (offset : Int))) ++
    [(rowWidthName, (layout.width : Int))]

theorem header_eq (layout : Layout) : layout.header = defines layout.definitions := by
  simp [header, defines, definitions, Function.comp_def]

theorem lookup_eq_some {pairs : List (String × Int)} {n : Int}
    (hnodup : (pairs.map Prod.fst).Nodup) (h : (x, n) ∈ pairs) : pairs.lookup x = some n := by
  induction pairs with
  | nil => exact absurd h List.not_mem_nil
  | cons pair rest ih =>
    rw [List.map_cons, List.nodup_cons] at hnodup
    rcases List.mem_cons.1 h with rfl | h
    · exact List.lookup_cons_self
    · have hne : x ≠ pair.1 := by
        rintro rfl
        exact hnodup.1 (List.mem_map.2 ⟨_, h, rfl⟩)
      rw [List.lookup_cons, beq_false_of_ne hne]
      exact ih hnodup.2 h

theorem lookup_definitions_width :
    layout.definitions.reverse.lookup rowWidthName = some (layout.width : Int) := by
  rw [definitions, List.reverse_append]
  exact List.lookup_cons_self

theorem lookup_definitions_cell (hx : x ≠ rowWidthName) (h : layout.offset? x = some off) :
    layout.definitions.reverse.lookup x = some (off : Int) := by
  rw [definitions, List.reverse_append, List.reverse_singleton, List.singleton_append,
    List.lookup_cons, beq_false_of_ne hx]
  have hfst : (layout.symbols.map fun (name, offset) => (name, (offset : Int))).map Prod.fst =
      layout.names := by
    rw [List.map_map]
    exact List.zipIdx_map_fst 0 layout.names
  refine lookup_eq_some ?_ ?_
  · rw [List.map_reverse, List.nodup_reverse, hfst]
    exact layout.nodup
  · exact List.mem_reverse.2 (List.mem_map.2 ⟨(x, off), offset?_eq_some_iff.1 h, rfl⟩)

/-- The numbers in the definitions are those up to the width. -/
theorem forall_mem_definitions (layout : Layout) {P : Int → Prop} :
    (∀ pair ∈ layout.definitions, P pair.2) ↔ ∀ n ≤ layout.width, P (n : Int) := by
  rw [definitions, List.forall_mem_append, List.forall_mem_map, List.forall_mem_singleton]
  constructor
  · rintro ⟨hsymbols, hwidth⟩ n hn
    rcases Nat.lt_or_eq_of_le hn with hlt | rfl
    · have hmem : (layout.names.get ⟨n, hlt⟩, n) ∈ layout.symbols :=
        List.mk_mem_zipIdx_iff_getElem?.2 (List.getElem?_eq_getElem hlt)
      exact hsymbols _ hmem
    · exact hwidth
  · intro h
    refine ⟨fun symbol hmem => h _ ?_, h _ (Nat.le_refl _)⟩
    exact Nat.le_of_lt (List.snd_lt_of_mem_zipIdx hmem)

/-- The operands of generated instructions are replaced by the numbers that they stand for. -/
theorem resolve_eq {ref : Ref} (h : ref.Generated layout.Cell) :
    ref.resolve layout.definitions.reverse = .number (layout.operand ref) := by
  cases ref with
  | number n => exact congrArg Ref.number (Int.toNat_of_nonneg h.1).symm
  | name x =>
    by_cases hx : x = rowWidthName
    · subst hx
      rw [Ref.resolve, lookup_definitions_width, operand, if_pos rfl]
    · obtain ⟨off, hoff, hop⟩ := (h.resolve_right hx).exists_offset?
      rw [Ref.resolve, lookup_definitions_cell hx hoff, hop]

theorem operand_lt {ref : Ref} (h : ref.Generated layout.Cell) (hwidth : layout.width < countLimit) :
    layout.operand ref < countLimit := by
  cases ref with
  | number n =>
    have hn : 0 ≤ n ∧ n ≤ 255 := h
    have hlimit : countLimit = 0x8000000000000000 := rfl
    show n.toNat < countLimit
    omega
  | name x =>
    by_cases hx : x = rowWidthName
    · rw [operand, if_pos hx]
      exact hwidth
    · obtain ⟨off, hoff, hop⟩ := (h.resolve_right hx).exists_offset?
      rw [hop]
      exact Nat.lt_trans (offset?_lt_width hoff) hwidth

end Layout

/-! ## Comments -/

theorem not_lineFeed_mem_name {name : String} (h : IsVariable name) : '\n' ∉ name.toList :=
  (isWord_of_isName h.1).not_lineFeed_mem

theorem Comparison.not_lineFeed_mem_text {c : Comparison} (h : c.WellFormed) :
    '\n' ∉ c.text.toList := by
  have hsign : '\n' ∉ c.test.sign.toList := by
    cases c.test <;> decide
  simp only [Comparison.text, String.toList_append, List.mem_append, not_or]
  exact ⟨⟨⟨⟨not_lineFeed_mem_name h.1, by decide⟩, hsign⟩, by decide⟩,
    not_lineFeed_mem_toString _⟩

theorem Condition.not_lineFeed_mem_text {condition : Condition} (h : condition.WellFormed) :
    '\n' ∉ condition.text.toList :=
  not_lineFeed_mem_intercalate (by decide)
    (List.forall_mem_map.2 fun c hc => Comparison.not_lineFeed_mem_text (h.2 c hc))

theorem Statement.not_lineFeed_mem_headline {statement : Statement} (h : statement.WellFormed) :
    '\n' ∉ statement.headline.toList := by
  cases statement with
  | input name | output name => simp [headline, not_lineFeed_mem_name h]
  | assign name value =>
    simp only [headline, String.toList_append, List.mem_append, not_or]
    exact ⟨⟨not_lineFeed_mem_name h.1, by decide⟩, not_lineFeed_mem_toString _⟩
  | move direction => cases direction <;> decide
  | loop condition body | branch condition body | branchElse condition body otherwise =>
    simp [headline, Condition.not_lineFeed_mem_text h.1]

theorem mem_lowerProgram {annotate : Bool} {program : Block} {instr : Instr Ref}
    (h : instr ∈ lowerProgram annotate program) :
    (∃ statement ∈ program, instr = .comment statement.headline) ∨
      instr ∈ lowerBlock 0 program := by
  induction program with
  | nil => exact absurd h List.not_mem_nil
  | cons statement rest ih =>
    rw [lowerProgram, List.flatMap_cons, List.mem_append, List.mem_append] at h
    rcases h with (h | h) | h
    · cases annotate with
      | false => exact absurd h List.not_mem_nil
      | true => exact .inl ⟨statement, List.mem_cons_self, List.mem_singleton.1 h⟩
    · exact .inr (List.mem_append_left _ h)
    · rcases ih h with ⟨other, hother, hinstr⟩ | h
      · exact .inl ⟨other, List.mem_cons_of_mem _ hother, hinstr⟩
      · exact .inr (List.mem_append_right _ h)

/-- Comments apart, the body of a program is the code of its block. -/
theorem filter_lowerProgram (annotate : Bool) (program : Block) :
    (lowerProgram annotate program).filter (fun instr => !instr.isComment) =
      lowerBlock 0 program := by
  induction program with
  | nil => rfl
  | cons statement rest ih =>
    have hstatement : (lowerStatement 0 statement).filter (fun instr => !instr.isComment) =
        lowerStatement 0 statement := by
      refine List.filter_eq_self.2 fun instr hmem => ?_
      rw [(overCells_lowerStatement statement 0 (fun _ => id) instr hmem).not_comment, Bool.not_false]
    have hcomment : (if annotate then [Instr.comment statement.headline] else []).filter
        (fun instr : Instr Ref => !instr.isComment) = [] := by
      cases annotate <;> rfl
    rw [lowerProgram, List.flatMap_cons, List.filter_append, List.filter_append, hcomment,
      hstatement, List.nil_append, lowerBlock]
    exact congrArg (lowerStatement 0 statement ++ ·) ih

theorem flatMap_cellNames_lowerProgram (annotate : Bool) (program : Block) :
    (lowerProgram annotate program).flatMap Instr.cellNames =
      (lowerBlock 0 program).flatMap Instr.cellNames := by
  induction program with
  | nil => rfl
  | cons statement rest ih =>
    have hcomment : (if annotate then [Instr.comment statement.headline] else []).flatMap
        Instr.cellNames = [] := by
      cases annotate <;> rfl
    rw [lowerProgram, List.flatMap_cons, List.flatMap_append, List.flatMap_append, hcomment,
      List.nil_append, lowerBlock, List.flatMap_append]
    exact congrArg ((lowerStatement 0 statement).flatMap Instr.cellNames ++ ·) ih

/-! ## The layout of a program -/

/-- The row of a program: its variables, and then what else its code touches. -/
def layoutOf (program : Block) : Layout :=
  .ofCode (Layout.ofNames (namesOf program)).names (lowerBlock 0 program)

theorem generate_eq {program : Block} (hnames : reservedName? program = none) (annotate : Bool) :
    generate annotate program =
      .ok ⟨layoutOf program, (layoutOf program).header ++ lowerProgram annotate program⟩ := by
  have hlayout : Layout.ofCode (Layout.ofNames (namesOf program)).names
      (lowerProgram annotate program) = layoutOf program := by
    rw [layoutOf, Layout.ofCode, flatMap_cellNames_lowerProgram, Layout.ofCode]
  rw [generate, variablesOf, hnames]
  show Except.ok (Listing.mk (Layout.ofCode _ _) _) = _
  rw [hlayout]

theorem mem_names_layoutOf {program : Block} {x : String} :
    x ∈ (layoutOf program).names ↔
      x ∈ namesOf program ∨ ∃ instr ∈ lowerBlock 0 program, x ∈ instr.cellNames := by
  rw [layoutOf, Layout.ofCode, Layout.mem_names_ofNames, List.mem_append, Layout.mem_names_ofNames,
    List.mem_flatMap]

section

variable {program : Block}

theorem layoutOf_subset_cells {x : String} (hx : x ∈ (layoutOf program).names) :
    x ∈ Block.cells 0 program := by
  rcases mem_names_layoutOf.1 hx with hx | ⟨instr, hinstr, hx⟩
  · exact Block.names_subset_cells program 0 hx
  · exact (overCells_lowerBlock program 0 (fun _ => id) instr hinstr).cellNames x hx

/-- The names in a row are variables or reserved. -/
theorem mem_layoutOf {x : String} (hx : x ∈ (layoutOf program).names) :
    x ∈ namesOf program ∨ isReserved x = true :=
  (Block.variable_or_internal (layoutOf_subset_cells hx)).imp_right IsInternal.isReserved

theorem width_layoutOf_le (program : Block) :
    (layoutOf program).width ≤ (Block.cells 0 program).length :=
  (layoutOf program).nodup.length_le_of_subset fun _ => layoutOf_subset_cells

theorem isCellName_of_mem_layoutOf (hwf : Block.WellFormed program)
    (hnames : ∀ x ∈ namesOf program, isReserved x = false) :
    ∀ x ∈ (layoutOf program).names, IsCellName x := by
  intro x hx
  exact Block.cells_named Int.le_rfl hwf hnames x (layoutOf_subset_cells hx)

/-- The code of a program touches cells of its layout only. -/
theorem generated_layoutOf (hwf : Block.WellFormed program)
    (hnames : ∀ x ∈ namesOf program, isReserved x = false) :
    Code.Generated (layoutOf program).Cell (lowerBlock 0 program) := by
  have hgenerated := generated_lowerBlock program 0 Int.le_rfl hwf hnames
    (Block.cells_named Int.le_rfl hwf hnames)
  intro instr hinstr
  refine (hgenerated instr hinstr).mono ?_
  intro x hx hname
  exact ⟨mem_names_layoutOf.2 (.inr ⟨instr, hinstr, hx⟩), hname.2⟩

/-! ## The text of a listing -/

theorem written_listing (hwf : Block.WellFormed program)
    (hnames : ∀ x ∈ namesOf program, isReserved x = false) (annotate : Bool) :
    ∀ instr ∈ (layoutOf program).header ++ lowerProgram annotate program, instr.Written := by
  have hcells := isCellName_of_mem_layoutOf hwf hnames
  have hgenerated := generated_layoutOf hwf hnames
  rw [Layout.header_eq, List.forall_mem_append]
  constructor
  · have hdefinitions : ∀ pair ∈ (layoutOf program).definitions,
        isName pair.1.toList = true ∧ 0 ≤ pair.2 := by
      rw [Layout.definitions, List.forall_mem_append, List.forall_mem_map, List.forall_mem_singleton]
      refine ⟨fun symbol hmem => ⟨?_, Int.natCast_nonneg _⟩, isName_rowWidthName,
        Int.natCast_nonneg _⟩
      exact (hcells symbol.1 (List.fst_mem_of_mem_zipIdx hmem)).1
    rw [defines, List.forall_mem_map]
    intro pair hmem
    exact ⟨List.forall_mem_singleton.2 (hdefinitions pair hmem).2, (hdefinitions pair hmem).1⟩
  · intro instr hmem
    rcases mem_lowerProgram hmem with ⟨statement, hstatement, rfl⟩ | hmem
    · refine ⟨fun ref hmem => absurd hmem List.not_mem_nil, ?_⟩
      exact Statement.not_lineFeed_mem_headline (hwf.of_mem statement hstatement)
    · exact (hgenerated instr hmem).written fun x hx => (hcells x hx.1).1

theorem not_isComment_of_mem_header {layout : Layout} {instr : Instr Ref}
    (h : instr ∈ layout.header) : instr.isComment = false := by
  rw [Layout.header_eq, defines] at h
  obtain ⟨pair, -, rfl⟩ := List.mem_map.1 h
  rfl

/-- Comments apart, the instructions of a program do not depend on whether it is annotated. -/
theorem filter_listing (annotate : Bool) (program : Block) :
    ((layoutOf program).header ++ lowerProgram annotate program).filter
        (fun instr => !instr.isComment) =
      (layoutOf program).header ++ lowerBlock 0 program := by
  have hheader : (layoutOf program).header.filter (fun instr => !instr.isComment) =
      (layoutOf program).header :=
    List.filter_eq_self.2 fun _ hmem => by rw [not_isComment_of_mem_header hmem, Bool.not_false]
  rw [List.filter_append, hheader, filter_lowerProgram]

/-- The instructions that the text of a program is read as, the comments passed over. -/
theorem readProgram_listing {annotate : Bool} {numbered : Numbered}
    (hwf : Block.WellFormed program) (hnames : ∀ x ∈ namesOf program, isReserved x = false)
    (h : readProgram (render ((layoutOf program).header ++ lowerProgram annotate program)) =
      .ok numbered) :
    numbered.map Prod.snd = defines (layoutOf program).definitions ++ lowerBlock 0 program := by
  have hwritten := written_listing hwf hnames annotate
  rw [readProgram_render hwritten (short_of_readProgram hwritten h)] at h
  cases h
  have hfilter := List.filter_map (f := Prod.snd) (p := fun instr : Instr Ref => !instr.isComment)
    (l := Asm.numbered ((layoutOf program).header ++ lowerProgram annotate program))
  rw [map_snd_numbered, filter_listing, Layout.header_eq] at hfilter
  rw [Layout.header_eq]
  exact hfilter.symm

/-- The instructions of a program with offsets and counts for names. -/
def resolvedOf (program : Block) : List (Instr Nat) :=
  (lowerBlock 0 program).map (Instr.map (layoutOf program).operand)

/-- What the text of a program is assembled to. -/
theorem assemble_text_eq {annotate : Bool} {code : List Op} (hwf : Block.WellFormed program)
    (hnames : ∀ x ∈ namesOf program, isReserved x = false)
    (h : assemble (render ((layoutOf program).header ++ lowerProgram annotate program)) =
      .ok code) :
    code = (resolvedOf program).flatMap encode := by
  have hgenerated := generated_layoutOf hwf hnames
  obtain ⟨numbered, hread, h⟩ := bind_eq_ok.1 h
  rw [assembleNumbered_defines_eq (readProgram_listing hwf hnames hread)
    (fun _ => not_define_lowerBlock) h]
  refine congrArg (List.flatMap encode) (List.map_congr_left fun instr hmem => ?_)
  refine Instr.map_congr fun operand hoperand => ?_
  rw [Layout.resolve_eq ((hgenerated instr hmem).operands operand hoperand)]
  rfl

theorem short_of_lt {n : Int} (h : n < countLimit) : (Ref.number n).Short := by
  have hlimit : (countLimit : Int) = 0x8000000000000000 := rfl
  have hlength : (Nat.toDigits 10 n.toNat).length ≤ 20 :=
    (Nat.length_toDigits_le_iff (by decide) (by decide)).2 (by omega)
  exact Nat.le_trans hlength (by decide)

/-- The numbers in the text of a program that are large are those of its header. -/
theorem short_listing_iff (hwf : Block.WellFormed program)
    (hnames : ∀ x ∈ namesOf program, isReserved x = false) (annotate : Bool) :
    (∀ instr ∈ (layoutOf program).header ++ lowerProgram annotate program, instr.Short) ↔
      ∀ n ≤ (layoutOf program).width, (Ref.number (n : Int)).Short := by
  have hbody : ∀ instr ∈ lowerProgram annotate program, instr.Short := by
    intro instr hmem
    rcases mem_lowerProgram hmem with ⟨statement, -, rfl⟩ | hmem
    · intro ref hmem
      exact absurd hmem List.not_mem_nil
    · refine List.forall_mem_map.2 fun operand hoperand => ?_
      have hgenerated := (generated_layoutOf hwf hnames instr hmem).operands operand hoperand
      obtain ⟨role, ref⟩ := operand
      cases ref with
      | name x => trivial
      | number n => exact short_of_lt (Int.lt_of_le_of_lt hgenerated.2 (by decide))
  have hdefine : ∀ pair : String × Int,
      (Instr.define pair.1 (.number pair.2)).Short ↔ (Ref.number pair.2).Short :=
    fun pair => List.forall_mem_singleton
  rw [List.forall_mem_append, and_iff_left hbody, Layout.header_eq, defines, List.forall_mem_map]
  simp only [hdefine]
  exact (layoutOf program).forall_mem_definitions (P := fun n => (Ref.number n).Short)

/-- What the text of a program is assembled to, and when. -/
theorem assemble_text_iff {annotate : Bool} {code : List Op} (hwf : Block.WellFormed program)
    (hnames : ∀ x ∈ namesOf program, isReserved x = false) :
    assemble (render ((layoutOf program).header ++ lowerProgram annotate program)) = .ok code ↔
      (∀ n ≤ (layoutOf program).width, (Ref.number (n : Int)).Short) ∧
      (∀ instr ∈ resolvedOf program, ∀ operand ∈ instr.operands, operand.2 < countLimit) ∧
      code = (resolvedOf program).flatMap encode := by
  have hgenerated := generated_layoutOf hwf hnames
  have hwritten := written_listing hwf hnames annotate
  have hbody : ∀ instr ∈ lowerBlock 0 program, instr.isDefine = false :=
    fun _ => not_define_lowerBlock
  have hcount : ∀ instr ∈ lowerBlock 0 program,
      (∀ operand ∈ instr.operands,
        (operand.2.resolve (layoutOf program).definitions.reverse).IsCount) ↔
      ∀ operand ∈ (instr.map (layoutOf program).operand).operands, operand.2 < countLimit := by
    intro instr hmem
    rw [Instr.operands_map, List.forall_mem_map]
    refine forall₂_congr fun operand hoperand => ?_
    rw [Layout.resolve_eq ((hgenerated instr hmem).operands operand hoperand)]
    exact (and_iff_right (Int.natCast_nonneg _)).trans Int.ofNat_lt
  have hresolved : (∀ instr ∈ resolvedOf program, ∀ operand ∈ instr.operands,
      operand.2 < countLimit) ↔ ∀ instr ∈ lowerBlock 0 program, ∀ operand ∈ instr.operands,
        (operand.2.resolve (layoutOf program).definitions.reverse).IsCount := by
    rw [resolvedOf, List.forall_mem_map]
    exact forall₂_congr fun instr hmem => (hcount instr hmem).symm
  rw [← short_listing_iff hwf hnames annotate, hresolved]
  constructor
  · intro h
    obtain ⟨numbered, hread, hcode⟩ := bind_eq_ok.1 h
    have hprogram := readProgram_listing hwf hnames hread
    exact ⟨short_of_readProgram hwritten hread,
      (assembleNumbered_defines_ok_iff hprogram hbody).1 ⟨code, hcode⟩,
      assemble_text_eq hwf hnames h⟩
  · rintro ⟨hshort, hoperands, rfl⟩
    have hread := readProgram_render hwritten hshort
    obtain ⟨code, hcode⟩ := (assembleNumbered_defines_ok_iff
      (readProgram_listing hwf hnames hread) hbody).2 hoperands
    have htext : assemble (render ((layoutOf program).header ++ lowerProgram annotate program)) =
        .ok code := by
      rw [assemble, hread]
      exact hcode
    rw [htext, assemble_text_eq hwf hnames htext]

/-- The text of a program whose rows are not too wide is assembled. -/
theorem assemble_text_ok (hwf : Block.WellFormed program)
    (hnames : ∀ x ∈ namesOf program, isReserved x = false)
    (hwidth : (layoutOf program).width < countLimit) (annotate : Bool) :
    ∃ code, assemble (render ((layoutOf program).header ++ lowerProgram annotate program)) =
      .ok code := by
  refine ⟨_, (assemble_text_iff hwf hnames).2 ⟨fun n hn => ?_, ?_, rfl⟩⟩
  · exact short_of_lt (Int.ofNat_lt.2 (Nat.lt_of_le_of_lt hn hwidth))
  · rw [resolvedOf, List.forall_mem_map]
    intro instr hmem
    rw [Instr.operands_map, List.forall_mem_map]
    intro operand hoperand
    exact Layout.operand_lt ((generated_layoutOf hwf hnames instr hmem).operands operand hoperand)
      hwidth

end

end TapeCompiler
