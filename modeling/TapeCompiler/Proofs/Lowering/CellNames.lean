import TapeCompiler.Proofs.Lowering.Generated
import TapeCompiler.Proofs.Source.Spelling
/-!
# The cells of a program

The cells that code may touch have names that can be written down, none of them the width of a row
(`Block.cells_named`), and there are no more of them than tokens in the program
(`Block.atLeast_spellings`).
-/
namespace TapeCompiler

open TapeCompiler.Text TapeCompiler.Spelling

/-! ## Names -/

section

variable {P : String → Prop}

theorem Condition.forall_mem_cells (hscratch : P scratchName) {depth : Int} (hdepth : 0 ≤ depth)
    (hflags : ∀ flag : Flag, flag.Natural → depth ≤ flag.depth → P flag.name) :
    ∀ (condition : Condition) (term : Int), 0 ≤ term → (∀ x ∈ condition.names, P x) →
      ∀ x ∈ condition.cells depth term, P x
  | [], _, _, _ => by simp [Condition.cells]
  | c :: rest, term, hterm, hnames => by
    have hrest := forall_mem_cells hscratch hdepth hflags rest (term + 1) (by omega)
      fun x hx => hnames x (List.mem_cons_of_mem _ hx)
    have hdifference := hflags (.difference depth term) ⟨hdepth, hterm⟩ Int.le_rfl
    have hequality := hflags (.equality depth term) ⟨hdepth, hterm⟩ Int.le_rfl
    simp only [Condition.cells, List.forall_mem_cons]
    exact ⟨hnames _ List.mem_cons_self, hscratch, hdifference, hequality, hrest⟩

mutual

theorem Statement.forall_mem_cells (hscratch : P scratchName) :
    ∀ (statement : Statement) (depth : Int), 0 ≤ depth →
      (∀ flag : Flag, flag.Natural → depth ≤ flag.depth → P flag.name) →
        (∀ x ∈ statement.names, P x) → ∀ x ∈ statement.cells depth, P x
  | .input _, _, _, _, hnames | .output _, _, _, _, hnames | .assign _ _, _, _, _, hnames => hnames
  | .move _, _, _, _, _ => by simp [Statement.cells]
  | .loop condition body, depth, hdepth, hflags, hnames => by
    simp only [Statement.names, List.forall_mem_append] at hnames
    simp only [Statement.cells, List.forall_mem_append, List.forall_mem_cons]
    exact ⟨⟨hflags (.again depth) hdepth Int.le_rfl,
      condition.forall_mem_cells hscratch hdepth hflags 0 Int.le_rfl hnames.1⟩,
      Block.forall_mem_cells hscratch body (depth + 1) (by omega)
        (fun flag h hdeep => hflags flag h (by omega)) hnames.2⟩
  | .branch condition body, depth, hdepth, hflags, hnames => by
    simp only [Statement.names, List.forall_mem_append] at hnames
    simp only [Statement.cells, List.forall_mem_append]
    exact ⟨condition.forall_mem_cells hscratch hdepth hflags 0 Int.le_rfl hnames.1,
      Block.forall_mem_cells hscratch body (depth + 1) (by omega)
        (fun flag h hdeep => hflags flag h (by omega)) hnames.2⟩
  | .branchElse condition body otherwise, depth, hdepth, hflags, hnames => by
    simp only [Statement.names, List.forall_mem_append] at hnames
    simp only [Statement.cells, List.forall_mem_append, List.forall_mem_cons]
    exact ⟨⟨⟨hflags (.untaken depth) hdepth Int.le_rfl,
      condition.forall_mem_cells hscratch hdepth hflags 0 Int.le_rfl hnames.1.1⟩,
      Block.forall_mem_cells hscratch body (depth + 1) (by omega)
        (fun flag h hdeep => hflags flag h (by omega)) hnames.1.2⟩,
      Block.forall_mem_cells hscratch otherwise (depth + 1) (by omega)
        (fun flag h hdeep => hflags flag h (by omega)) hnames.2⟩

/-- What holds of the variables of a block, of the scratch cell and of all flags from the depth of
the block on, holds of all its cells. -/
theorem Block.forall_mem_cells (hscratch : P scratchName) :
    ∀ (block : Block) (depth : Int), 0 ≤ depth →
      (∀ flag : Flag, flag.Natural → depth ≤ flag.depth → P flag.name) →
        (∀ x ∈ namesOf block, P x) → ∀ x ∈ Block.cells depth block, P x
  | [], _, _, _, _ => by simp [Block.cells]
  | statement :: rest, depth, hdepth, hflags, hnames => by
    simp only [namesOf, List.forall_mem_append] at hnames
    simp only [Block.cells, List.forall_mem_append]
    exact ⟨statement.forall_mem_cells hscratch depth hdepth hflags hnames.1,
      Block.forall_mem_cells hscratch rest depth hdepth hflags hnames.2⟩

end

end

/-- The cells of a program are its variables and internal cells. -/
theorem Block.variable_or_internal {program : Block} {x : String} (hx : x ∈ Block.cells 0 program) :
    x ∈ namesOf program ∨ IsInternal x :=
  Block.forall_mem_cells (P := fun x => x ∈ namesOf program ∨ IsInternal x) (.inr (.inl rfl))
    program 0 Int.le_rfl (fun flag h _ => .inr (.inr ⟨flag, h, rfl⟩)) (fun _ => .inl) x hx

theorem isName_append {stem rest : List Char} (hstem : isName stem = true)
    (hrest : ∀ c ∈ rest, isNameChar c = true) : isName (stem ++ rest) = true := by
  cases stem with
  | nil => simp [isName] at hstem
  | cons c stem =>
    rw [isName, Bool.and_eq_true] at hstem
    rw [List.cons_append, isName, hstem.1, List.all_append, hstem.2, Bool.true_and, Bool.true_and,
      List.all_eq_true]
    exact hrest

theorem isNameChar_of_mem_toDigits {n : Nat} {c : Char} (h : c ∈ Nat.toDigits 10 n) :
    isNameChar c = true := by
  rw [isNameChar, Nat.isDigit_of_mem_toDigits (by decide) (by decide) h, Bool.or_true]

theorem isName_numbered {stem : String} (hstem : isName stem.toList = true) (n : Nat) :
    isName (stem ++ toString (n : Int)).toList = true := by
  rw [String.toList_append, toList_toString_natCast]
  exact isName_append hstem fun _ => isNameChar_of_mem_toDigits

theorem isName_flag (flag : Flag) (h : flag.Natural) : isName flag.name.toList = true := by
  have hpair : ∀ (stem : String) (d t : Nat), isName stem.toList = true →
      isName (stem ++ toString (d : Int) ++ "_" ++ toString (t : Int)).toList = true := by
    intro stem d t hstem
    have hsign : ∀ c ∈ ['_'], isNameChar c = true := List.forall_mem_singleton.2 (by decide)
    refine isName_numbered ?_ t
    rw [String.toList_append]
    exact isName_append (isName_numbered hstem d) hsign
  cases flag with
  | difference depth term =>
    obtain ⟨d, rfl⟩ := Int.eq_ofNat_of_zero_le h.1
    obtain ⟨t, rfl⟩ := Int.eq_ofNat_of_zero_le h.2
    exact hpair "__if_" d t (by decide)
  | equality depth term =>
    obtain ⟨d, rfl⟩ := Int.eq_ofNat_of_zero_le h.1
    obtain ⟨t, rfl⟩ := Int.eq_ofNat_of_zero_le h.2
    exact hpair "__eq_" d t (by decide)
  | untaken depth =>
    obtain ⟨d, rfl⟩ := Int.eq_ofNat_of_zero_le h
    exact isName_numbered (by decide) d
  | again depth =>
    obtain ⟨d, rfl⟩ := Int.eq_ofNat_of_zero_le h
    exact isName_numbered (by decide) d

theorem isReserved_rowWidthName : isReserved rowWidthName = true := by
  simp [isReserved]

theorem isName_rowWidthName : isName rowWidthName.toList = true := by decide

/-- A name that a cell of generated code may have. -/
def IsCellName (x : String) : Prop := isName x.toList = true ∧ x ≠ rowWidthName

/-- The cells of a program have names that can be written down, and none takes the name of the
width. -/
theorem Block.cells_named {block : Block} {depth : Int} (hdepth : 0 ≤ depth)
    (hwf : Block.WellFormed block) (hnames : ∀ x ∈ namesOf block, isReserved x = false) :
    ∀ x ∈ Block.cells depth block, IsCellName x := by
  refine Block.forall_mem_cells ⟨by decide, by decide⟩ block depth hdepth
    (fun flag h _ => ⟨isName_flag flag h, flag.name_ne_rowWidthName⟩) ?_
  intro x hx
  exact ⟨(hwf.isVariable x hx).1, ne_of_isReserved (hnames x hx) isReserved_rowWidthName⟩

/-! ## Numbers of cells -/

/-- No member of the language is shorter. -/
def AtLeast (n : Nat) (L : Language Token) : Prop := ∀ ts ∈ L, n ≤ ts.length

section

variable {L M : Language Token} {m n : Nat}

theorem AtLeast.mul (hL : AtLeast m L) (hM : AtLeast n M) : AtLeast (m + n) (L * M) := by
  rintro _ ⟨ts, hts, us, hus, rfl⟩
  rw [List.length_append]
  exact Nat.add_le_add (hL ts hts) (hM us hus)

theorem AtLeast.add (hL : AtLeast n L) (hM : AtLeast n M) : AtLeast n (L + M) := by
  intro ts hts
  rcases hts with hts | hts
  · exact hL ts hts
  · exact hM ts hts

theorem AtLeast.mono (h : AtLeast n L) (hmn : m ≤ n) : AtLeast m L := by
  intro ts hts
  exact Nat.le_trans hmn (h ts hts)

theorem AtLeast.zero : AtLeast n 0 := by
  intro ts hts
  exact absurd hts (Language.notMem_zero ts)

theorem atLeast_ofKind (kind : TokenKind) : AtLeast 1 (ofKind kind) := by
  rintro _ ⟨t, rfl, -⟩
  exact Nat.le_refl 1

theorem atLeast_ofWord (word : String) : AtLeast 1 (ofWord word) := by
  rintro _ ⟨t, rfl, -⟩
  exact Nat.le_refl 1

theorem atLeast_ofVariable (name : String) : AtLeast 1 (ofVariable name) := by
  rintro _ ⟨t, rfl, -⟩
  exact Nat.le_refl 1

theorem atLeast_ofNumber (n : Int) : AtLeast 1 (ofNumber n) := by
  rintro _ ⟨t, rfl, -⟩
  exact Nat.le_refl 1

theorem atLeast_ofTest (test : Test) : AtLeast 1 (ofTest test) := by
  cases test <;> exact atLeast_ofKind _

theorem AtLeast.braced (h : AtLeast n L) : AtLeast (n + 2) (braced L) :=
  (((atLeast_ofKind _).mul h).mul (atLeast_ofKind _)).mono (by omega)

end

theorem Comparison.atLeast_spellings (c : Comparison) : AtLeast 3 c.spellings :=
  ((atLeast_ofVariable _).mul (atLeast_ofTest _)).mul (atLeast_ofNumber _)

/-- A comparison has four cells and three tokens, but one more between two of them. -/
theorem Condition.atLeast_spellings : ∀ (condition : Condition) (depth term : Int),
    AtLeast ((condition.cells depth term).length - 1) condition.spellings
  | [], _, _ => .zero
  | [c], _, _ => c.atLeast_spellings
  | c :: d :: rest, depth, term => by
    have hrest := Condition.atLeast_spellings (d :: rest) depth (term + 1)
    have hmul := (c.atLeast_spellings.mul (atLeast_ofKind .and)).mul hrest
    refine hmul.mono ?_
    simp only [Condition.cells, List.length_cons]
    omega

mutual

theorem Statement.atLeast_spellings : ∀ (statement : Statement) (depth : Int),
    AtLeast (statement.cells depth).length statement.spellings
  | .input name, _ | .output name, _ =>
    ((((atLeast_ofWord _).mul (atLeast_ofKind _)).mul (atLeast_ofVariable name)).mul
      (atLeast_ofKind _)).mono (by simp [Statement.cells])
  | .assign name value, _ =>
    (((atLeast_ofVariable name).mul (atLeast_ofKind _)).mul (atLeast_ofNumber value)).mono
      (by simp [Statement.cells])
  | .move _, _ => (atLeast_ofWord _).mono (by simp [Statement.cells])
  | .loop condition body, depth => by
    have hcondition := condition.atLeast_spellings depth 0
    have hbody := Block.atLeast_spellings body (depth + 1)
    refine (((atLeast_ofWord _).mul hcondition).mul hbody.braced).mono ?_
    simp only [Statement.cells, List.length_append, List.length_cons]
    omega
  | .branch condition body, depth => by
    have hcondition := condition.atLeast_spellings depth 0
    have hbody := Block.atLeast_spellings body (depth + 1)
    refine (((atLeast_ofWord _).mul hcondition).mul hbody.braced).mono ?_
    simp only [Statement.cells, List.length_append]
    omega
  | .branchElse condition body otherwise, depth => by
    have hcondition := condition.atLeast_spellings depth 0
    have hbody := Block.atLeast_spellings body (depth + 1)
    have hotherwise := Block.atLeast_spellings otherwise (depth + 1)
    have hpart : AtLeast (Block.cells (depth + 1) otherwise).length
        (braced (Block.spellings otherwise) +
          if Block.isBranch otherwise then Block.spellings otherwise else 0) := by
      refine (hotherwise.braced.mono (Nat.le_add_right _ _)).add ?_
      split
      · exact hotherwise
      · exact .zero
    refine (((((atLeast_ofWord _).mul hcondition).mul hbody.braced).mul
      (atLeast_ofWord _)).mul hpart).mono ?_
    simp only [Statement.cells, List.length_append, List.length_cons]
    omega

/-- A block has at most as many cells as tokens. -/
theorem Block.atLeast_spellings : ∀ (block : Block) (depth : Int),
    AtLeast (Block.cells depth block).length (Block.spellings block)
  | [], _ => fun _ _ => Nat.zero_le _
  | statement :: rest, depth => by
    rw [Block.cells, List.length_append]
    exact (statement.atLeast_spellings depth).mul (Block.atLeast_spellings rest depth)

end

end TapeCompiler
