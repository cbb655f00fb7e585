import TapeCompiler.Lowering.Layout
import TapeCompiler.Proofs.Asm.BulkCopy
import TapeCompiler.Proofs.Asm.Encoding
import TapeCompiler.Proofs.Asm.RowMeaning
import TapeCompiler.Proofs.Lowering.Generated
/-!
# Rows on a tape

A layout puts the rows of a world one behind the other on a tape that is a ring, so rows far apart
may share cells. As long as the rows that are visited fit on the ring side by side (`Fits`), the tape
holds them all at once (`Carries`), and generated instructions do to it what they do to the world.
-/
namespace TapeCompiler

open TapeCompiler.Asm

namespace Layout

variable {layout : Layout} {visited : Int → Prop} {size : Nat} {x y : String} {off off' : Nat}

/-! ## The cells of rows -/

/-- The cell on a ring of the given size at an offset of a row. -/
def cellAt (layout : Layout) (size : Nat) (row : Int) (off : Nat) : Nat :=
  ((row * layout.width + off) % size).toNat

/-- The visited rows have cells of their own. -/
def Fits (layout : Layout) (visited : Int → Prop) (size : Nat) : Prop :=
  ∀ r r' off off', visited r → visited r' → off < layout.width → off' < layout.width →
    layout.cellAt size r off = layout.cellAt size r' off' → r = r' ∧ off = off'

theorem eq_of_emod_eq {a b n : Int} (h : a % n = b % n) (hlt : (a - b).natAbs < n.natAbs) :
    a = b := by
  have hdvd := Int.dvd_of_emod_eq_zero (Int.emod_eq_emod_iff_emod_sub_eq_zero.1 h)
  have := Int.eq_zero_of_dvd_of_natAbs_lt_natAbs hdvd hlt
  omega

/-- Rows fit if the ring has room for an interval that holds them all. -/
theorem fits_of_interval {lo hi : Int} (h : ∀ r, visited r → lo ≤ r ∧ r ≤ hi)
    (hsize : (hi - lo + 1) * layout.width ≤ size) : layout.Fits visited size := by
  intro r r' off off' hr hr' ho ho' he
  have hmul : ∀ a b : Int, a ≤ b → a * layout.width ≤ b * layout.width :=
    fun a b hab => Int.mul_le_mul_of_nonneg_right hab (by omega)
  have hspan : (hi - lo + 1) * layout.width =
      hi * layout.width - lo * layout.width + layout.width := by
    rw [Int.add_mul, Int.sub_mul, Int.one_mul]
  have hnext : ∀ a : Int, (a + 1) * layout.width = a * layout.width + layout.width := fun a => by
    rw [Int.add_mul, Int.one_mul]
  have hlo := hmul _ _ (h r hr).1
  have hhi := hmul _ _ (h r hr).2
  have hlo' := hmul _ _ (h r' hr').1
  have hhi' := hmul _ _ (h r' hr').2
  have hpos : (size : Int) ≠ 0 := by omega
  have hmod : (r * layout.width + off) % size = (r' * layout.width + off') % size := by
    have h1 := Int.emod_nonneg (r * layout.width + off) hpos
    have h2 := Int.emod_nonneg (r' * layout.width + off') hpos
    simp only [cellAt] at he
    omega
  have heq := eq_of_emod_eq hmod (by omega)
  have hrow : r = r' := by
    rcases Int.lt_trichotomy r r' with hlt | heq' | hlt
    · have := hmul (r + 1) r' (by omega)
      have := hnext r
      omega
    · exact heq'
    · have := hmul (r' + 1) r (by omega)
      have := hnext r'
      omega
  subst hrow
  exact ⟨rfl, by omega⟩

/-- The offset of a name is its number among the symbols. -/
theorem offset?_eq_some_iff : layout.offset? x = some off ↔ (x, off) ∈ layout.symbols := by
  rw [symbols, List.mk_mem_zipIdx_iff_getElem?, List.getElem?_eq_some_iff, offset?,
    List.idxOf?_eq_some_iff]
  constructor
  · rintro ⟨hlt, hname, -⟩
    exact ⟨hlt, hname⟩
  · rintro ⟨hlt, hname⟩
    refine ⟨hlt, hname, fun other hother heq => ?_⟩
    exact Nat.ne_of_lt hother ((List.getElem_inj layout.nodup).1 (heq.trans hname.symm))

theorem offset?_inj (hx : layout.offset? x = some off) (hy : layout.offset? y = some off) :
    x = y := by
  rw [offset?_eq_some_iff, symbols, List.mk_mem_zipIdx_iff_getElem?] at hx hy
  exact Option.some.inj (hx.symm.trans hy)

theorem exists_offset? (h : x ∈ layout.names) : ∃ off, layout.offset? x = some off :=
  Option.isSome_iff_exists.1 (List.isSome_idxOf?.2 h)

/-- Every place in a row is the offset of a name. -/
theorem exists_name (h : off < layout.width) :
    ∃ x ∈ layout.names, layout.offset? x = some off := by
  refine ⟨layout.names[off], List.getElem_mem h, offset?_eq_some_iff.2 ?_⟩
  exact List.mk_mem_zipIdx_iff_getElem?.2 (List.getElem?_eq_getElem h)

/-- The row where programs start is at the start of the ring. -/
theorem cellAt_zero (h : off < size) : layout.cellAt size 0 off = off := by
  rw [cellAt, Int.zero_mul, Int.zero_add, ← Int.natCast_emod, Int.toNat_natCast, Nat.mod_eq_of_lt h]

/-! ## Worlds on a tape -/

/-- A tape of the given size holds the visited rows of a world, and nothing else. -/
structure Carries (layout : Layout) (visited : Int → Prop) (size : Nat) (w : World)
    (s : Snapshot) : Prop where
  size_eq : s.tape.size = size
  head : s.tape.head = layout.cellAt size w.row 0
  input : s.input = w.input
  output : s.output = w.output
  cells : ∀ r, visited r → ∀ x off, layout.offset? x = some off →
    s.tape.cells[layout.cellAt size r off]? = some (w.cells r x)
  rest : ∀ i < size, (∀ r, visited r → ∀ off < layout.width, layout.cellAt size r off ≠ i) →
    s.tape.cells[i]? = some 0

namespace Carries

variable {w : World} {s : Snapshot} {b : UInt8}

theorem place_eq (h : layout.Carries visited size w s) (d : Int) :
    s.place d = ((w.row * layout.width + d) % size).toNat := by
  have hhead : (s.tape.head : Int) = (w.row * layout.width) % size := by
    have hpos : (size : Int) ≠ 0 := by have := s.size_pos; have := h.size_eq; omega
    have := Int.emod_nonneg (w.row * layout.width) hpos
    have := h.head
    simp only [cellAt, Int.natCast_zero, Int.add_zero] at this
    omega
  rw [Snapshot.place, hhead, h.size_eq, Int.emod_add_emod]

theorem place_cell (h : layout.Carries visited size w s) (off : Nat) :
    s.place off = layout.cellAt size w.row off := h.place_eq off

theorem value_eq (h : layout.Carries visited size w s) (hw : visited w.row)
    (hx : layout.offset? x = some off) : s.value off = w.get x :=
  Snapshot.value_eq_of ((congrArg (s.tape.cells[·]?) (h.place_cell off)).trans
    (h.cells _ hw x off hx))

/-- A change of a cell on a visited row changes one name of the world. -/
theorem change (h : layout.Carries visited size w s) (hfits : layout.Fits visited size)
    (hw : visited w.row) (hx : layout.offset? x = some off) {f : UInt8 → UInt8}
    (hf : f (w.get x) = b) : layout.Carries visited size (w.put x b) (s.change off f) where
  size_eq := (s.size_change off f).trans h.size_eq
  head := h.head
  input := h.input
  output := h.output
  cells r hr y off' hy := by
    rw [Snapshot.cells_change, h.place_cell, World.cells_put, h.cells r hr y off' hy]
    split
    · next he =>
      obtain ⟨rfl, rfl⟩ :=
        hfits _ _ _ _ hw hr (offset?_lt_width hx) (offset?_lt_width hy) he
      obtain rfl := offset?_inj hx hy
      rw [if_pos ⟨rfl, rfl⟩, ← hf]
      rfl
    · next hne =>
      rw [if_neg]
      rintro ⟨rfl, rfl⟩
      exact hne (by rw [Option.some.inj (hx.symm.trans hy)])
  rest i hi hout := by
    rw [Snapshot.cells_change, h.place_cell, if_neg (hout _ hw off (offset?_lt_width hx))]
    exact h.rest i hi hout

/-- A move by the distance of two rows. -/
theorem travel (h : layout.Carries visited size w s) {d : Int} {v : World}
    (hrow : w.row * layout.width + d = v.row * layout.width) (hcells : v.cells = w.cells)
    (hinput : v.input = w.input) (houtput : v.output = w.output) :
    layout.Carries visited size v (s.travel d) where
  size_eq := h.size_eq
  head := by
    rw [show (s.travel d).tape.head = s.place d from rfl, h.place_eq, hrow, cellAt,
      Int.natCast_zero, Int.add_zero]
  input := h.input.trans hinput.symm
  output := h.output.trans houtput.symm
  cells := hcells ▸ h.cells
  rest := h.rest

theorem read (h : layout.Carries visited size w s) (hfits : layout.Fits visited size)
    (hw : visited w.row) (hx : layout.offset? x = some off) :
    layout.Carries visited size (w.read x) (s.change off fun _ => s.input.headD 0).consume := by
  have hread := h.change hfits hw hx (f := fun _ => s.input.headD 0) rfl
  rw [World.read, ← h.input]
  exact ⟨hread.size_eq, hread.head, congrArg List.tail hread.input, hread.output, hread.cells,
    hread.rest⟩

theorem write (h : layout.Carries visited size w s) (hw : visited w.row)
    (hx : layout.offset? x = some off) :
    layout.Carries visited size (w.write x) (s.emit (s.value off)) where
  size_eq := h.size_eq
  head := h.head
  input := h.input
  output := by
    rw [World.write, ← h.value_eq hw hx, ← h.output]
    rfl
  cells := h.cells
  rest := h.rest

/-! ## Copies -/

theorem addAll (h : layout.Carries visited size w s) (hfits : layout.Fits visited size)
    (hw : visited w.row) (b : UInt8) {names : List String} (hnames : ∀ y ∈ names, y ∈ layout.names) :
    layout.Carries visited size (names.foldl (fun v y => v.put y (v.get y + b)) w)
      (s.addAll (names.map fun y => (layout.offset? y).getD 0) b) := by
  induction names generalizing w s with
  | nil => exact h
  | cons y rest ih =>
    rw [List.forall_mem_cons] at hnames
    obtain ⟨off, hoff⟩ := exists_offset? hnames.1
    have hfirst := h.change hfits hw hoff (f := (· + b)) rfl
    rw [List.map_cons, hoff]
    exact ih hfirst hw hnames.2

theorem apart (h : layout.Carries visited size w s) (hfits : layout.Fits visited size)
    (hw : visited w.row) (hx : layout.offset? x = some off) {names : List String}
    (hnames : ∀ y ∈ names, y ∈ layout.names ∧ y ≠ x) :
    Apart s off (names.map fun y => (layout.offset? y).getD 0) := by
  intro target hmem
  obtain ⟨y, hy, rfl⟩ := List.mem_map.1 hmem
  obtain ⟨off', hoff'⟩ := exists_offset? (hnames y hy).1
  rw [hoff', Option.getD_some, h.place_cell, h.place_cell]
  intro he
  obtain ⟨-, rfl⟩ := hfits _ _ _ _ hw hw (offset?_lt_width hoff') (offset?_lt_width hx) he
  exact (hnames y hy).2 (offset?_inj hoff' hx)

theorem bulkCopy (h : layout.Carries visited size w s) (hfits : layout.Fits visited size)
    (hw : visited w.row) (hx : layout.offset? x = some off) {names : List String}
    (hnames : ∀ y ∈ names, y ∈ layout.names) :
    layout.Carries visited size (w.copy x names)
      (Asm.bulkCopy off (names.map fun y => (layout.offset? y).getD 0) s) := by
  have hrow : visited (w.copy x names).row := by rwa [row_copy]
  rw [Asm.bulkCopy, h.value_eq hw hx]
  exact (h.addAll hfits hw (w.get x) hnames).change hfits hrow hx rfl

end Carries

/-! ## Instructions -/

/-- The number that an operand stands for: the offset of a cell, the width of a row, or itself. -/
def operand (layout : Layout) : Ref → Nat
  | .number n => n.toNat
  | .name x => if x = rowWidthName then layout.width else (layout.offset? x).getD 0

/-- The cells of the layout, as generated instructions name them. -/
def Cell (layout : Layout) (x : String) : Prop := x ∈ layout.names ∧ x ≠ rowWidthName

theorem operand_cell (h : layout.Cell x) :
    layout.operand (.name x) = (layout.offset? x).getD 0 := if_neg h.2

theorem Cell.exists_offset? (h : layout.Cell x) :
    ∃ off, layout.offset? x = some off ∧ layout.operand (.name x) = off := by
  obtain ⟨off, hoff⟩ := Layout.exists_offset? h.1
  exact ⟨off, hoff, by rw [operand_cell h, hoff, Option.getD_some]⟩

theorem ofInt_eq_ofNat {n : Int} (h : 0 ≤ n) : UInt8.ofInt n = .ofNat n.toNat := by
  obtain ⟨k, rfl⟩ := Int.eq_ofNat_of_zero_le h
  have hmod : ((k : Int) % 2 ^ 8).toNat = k % 2 ^ 8 := by omega
  rw [UInt8.ofInt, hmod, UInt8.ofNat_mod_size, Int.toNat_natCast]

/-- A generated instruction ends in one world and on one tape, and that tape carries that world. -/
theorem Carries.acts {instr : Instr Ref} {w : World} {s : Snapshot}
    (h : layout.Carries visited size w s) (hfits : layout.Fits visited size)
    (hw : visited w.row) (hgenerated : instr.Generated layout.Cell)
    (hact : instr.piece = .act instr) :
    ∃ v t, (∀ m, instr.ActsOnRow w m ↔ m = v) ∧
      (∀ m, (instr.map layout.operand).Acts s m ↔ m = t) ∧ layout.Carries visited size v t := by
  unfold Instr.Generated at hgenerated
  split at hgenerated
  · next x n =>
    obtain ⟨hx, hn, -⟩ := hgenerated
    obtain ⟨off, hoff, hop⟩ := hx.exists_offset?
    refine ⟨_, s.change off (· - .ofNat n.toNat), fun _ => Iff.rfl, fun _ => ?_,
      h.change hfits hw hoff (by rw [ofInt_eq_ofNat hn])⟩
    rw [Instr.map, hop]
    exact Iff.rfl
  · next x n =>
    obtain ⟨hx, hn, -⟩ := hgenerated
    obtain ⟨off, hoff, hop⟩ := hx.exists_offset?
    refine ⟨_, s.change off (fun _ => .ofNat n.toNat), fun _ => Iff.rfl, fun _ => ?_,
      h.change hfits hw hoff (ofInt_eq_ofNat hn).symm⟩
    rw [Instr.map, hop]
    exact Iff.rfl
  · subst hgenerated
    refine ⟨w.move .right, s.travel layout.width, fun _ => and_iff_right rfl, fun _ => ?_,
      h.travel ?_ rfl rfl rfl⟩
    · rw [Instr.map, operand, if_pos rfl]
      exact Iff.rfl
    · rw [show (w.move .right).row = w.row + 1 from rfl, Int.add_mul, Int.one_mul]
  · subst hgenerated
    refine ⟨w.move .left, s.travel (-layout.width), fun _ => and_iff_right rfl, fun _ => ?_,
      h.travel ?_ rfl rfl rfl⟩
    · rw [Instr.map, operand, if_pos rfl]
      exact Iff.rfl
    · rw [show (w.move .left).row = w.row - 1 from rfl, Int.sub_mul, Int.one_mul]
      rfl
  · simp [Instr.piece] at hact
  · simp [Instr.piece] at hact
  · obtain ⟨off, hoff, hop⟩ := Cell.exists_offset? hgenerated
    refine ⟨_, (s.change off fun _ => s.input.headD 0).consume, fun _ => Iff.rfl, fun _ => ?_,
      h.read hfits hw hoff⟩
    rw [Instr.map, hop]
    exact Iff.rfl
  · obtain ⟨off, hoff, hop⟩ := Cell.exists_offset? hgenerated
    refine ⟨_, s.emit (s.value off), fun _ => Iff.rfl, fun _ => ?_, h.write hw hoff⟩
    rw [Instr.map, hop]
    exact Iff.rfl
  · next x targets =>
    obtain ⟨hx, y, names, rfl, hnames⟩ := hgenerated
    obtain ⟨off, hoff, hop⟩ := hx.exists_offset?
    have hcells : ∀ z ∈ y :: names, z ∈ layout.names := fun z hz => (hnames z hz).1.1
    have htargets : ((y :: names).map Ref.name).map layout.operand =
        (y :: names).map fun z => (layout.offset? z).getD 0 := by
      rw [List.map_map]
      exact List.map_congr_left fun z hz => operand_cell (hnames z hz).1
    refine ⟨_, Asm.bulkCopy off ((y :: names).map fun z => (layout.offset? z).getD 0) s,
      fun _ => actsOnRow_copy, fun _ => ?_, h.bulkCopy hfits hw hoff hcells⟩
    rw [Instr.map, hop, htargets]
    exact acts_copy_iff (h.apart hfits hw hoff fun z hz => ⟨(hnames z hz).1.1, (hnames z hz).2⟩)
  · exact absurd hgenerated id

/-! ## Code -/

/-- The tape does what the world does, as long as no instruction leads to a row not visited. -/
theorem agrees (hfits : layout.Fits visited size) :
    rowMeaning.Agrees (tapeMeaning.pullback (Instr.map layout.operand) layout.operand)
      (fun w => visited w.row) (layout.Carries visited size)
      (fun instr => instr.Generated layout.Cell ∧ instr.piece = .act instr)
      (fun ref => ∃ x, layout.Cell x ∧ ref = .name x) where
  sound := by
    rintro instr w s t ⟨hgenerated, hact⟩ h hw ht
    obtain ⟨v, t', hv, ht', hcarries⟩ := h.acts hfits hw hgenerated hact
    obtain rfl := (ht' t).1 ht
    exact ⟨v, (hv v).2 rfl, hcarries⟩
  complete := by
    rintro instr w s v ⟨hgenerated, hact⟩ h hw hv
    obtain ⟨v', t, hv', ht, hcarries⟩ := h.acts hfits hw hgenerated hact
    obtain rfl := (hv' v).1 hv
    exact ⟨t, (ht t).2 rfl, hcarries⟩
  test := by
    rintro _ w s ⟨x, hx, rfl⟩ h hw
    obtain ⟨off, hoff, hop⟩ := hx.exists_offset?
    show w.get x ≠ 0 ↔ s.value (layout.operand (.name x)) ≠ 0
    rw [hop, h.value_eq hw hoff]

theorem meets_piece {instr : Instr Ref} (h : instr.Generated layout.Cell) :
    instr.piece.Meets (fun instr => instr.Generated layout.Cell ∧ instr.piece = .act instr)
      (fun ref => ∃ x, layout.Cell x ∧ ref = .name x) := by
  cases instr with
  | openLoop ref | closeLoop ref =>
    cases ref with
    | name x => exact ⟨x, h, rfl⟩
    | number n => exact absurd h id
  | define | add | sub | set | right | left | copy | read | write | comment => exact ⟨h, rfl⟩

variable {code : Code} {w : World} {s : Snapshot}

/-- Code whose operands are replaced by numbers runs on the tape as it runs on the rows. -/
theorem executes_resolved (hfits : layout.Fits visited size) (hnested : Code.Nested code)
    (hgenerated : Code.Generated layout.Cell code) (h : layout.Carries visited size w s)
    (hw : visited w.row) :
    (∀ t, Executes tapeMeaning ((code.map (Instr.map layout.operand)).map Instr.piece) s t →
      ∃ m, CodeOn visited code (some w) m ∧ ∀ v, m = some v → layout.Carries visited size v t) ∧
    ∀ v, CodeOn visited code (some w) (some v) →
      ∃ t, Executes tapeMeaning ((code.map (Instr.map layout.operand)).map Instr.piece) s t ∧
        layout.Carries visited size v t := by
  obtain ⟨nest, hnest⟩ := WellNested.exists_nest hnested
  have hmap : (code.map (Instr.map layout.operand)).map Instr.piece =
      (nest.map (Instr.map layout.operand) layout.operand).pieces := by
    rw [pieces_map, hnest, List.map_map, List.map_map]
    exact List.map_congr_left fun instr _ => piece_map layout.operand instr
  have hmeets : ∀ p ∈ nest.pieces, p.Meets
      (fun instr => instr.Generated layout.Cell ∧ instr.piece = .act instr)
      (fun ref => ∃ x, layout.Cell x ∧ ref = .name x) := by
    rw [hnest]
    intro p hp
    obtain ⟨instr, hmem, rfl⟩ := List.mem_map.1 hp
    exact meets_piece (hgenerated instr hmem)
  simp only [hmap, executes_pieces, Nest.runs_map, CodeOn, ← hnest]
  exact ⟨fun t ht => (agrees hfits).runs_sound hmeets h hw ht,
    fun v hv => (agrees hfits).runs_complete hmeets h hw hv⟩

end Layout

end TapeCompiler
