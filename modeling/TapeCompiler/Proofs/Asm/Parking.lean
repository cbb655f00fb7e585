import TapeCompiler.Proofs.Asm.Bracketing
import TapeCompiler.Proofs.Machine.Displacement
import TapeCompiler.Proofs.Machine.Labels
/-!
# Where instructions leave the head

The code of an instruction other than `right` and `left` brings the head back to where it was
(`displacement_encode`), so an operand names a cell counted from where the program was started. This
is so as long as the run makes no jump between two cells. The brackets of a loop are instructions of
their own, and each goes to the cell of its own operand: a run that jumps from one to the other
takes the row along with it if the two operands differ (`onRow_of_assemble`).
-/
namespace TapeCompiler.Asm

open Machine

/-! ## Instructions that stay -/

def Instr.isMove {α : Type} : Instr α → Bool
  | .right _ | .left _ => true
  | _ => false

theorem Instr.isMove_map {α β : Type} (f : α → β) (instr : Instr α) :
    (instr.map f).isMove = instr.isMove := by
  cases instr <;> rfl

theorem Expansion.isMove_eq_false {definitions : Definitions} {program expanded : Numbered}
    (h : Expansion definitions program expanded)
    (hstays : ∀ entry ∈ program, entry.2.isMove = false) :
    ∀ entry ∈ expanded, entry.2.isMove = false := by
  induction h with
  | done => exact hstays
  | define _ _ ih => exact ih (List.forall_mem_cons.1 hstays).2
  | keep _ _ ih =>
    rw [List.forall_mem_cons] at hstays
    refine List.forall_mem_cons.2 ⟨?_, ih hstays.2⟩
    rw [Instr.isMove_map, hstays.1]

theorem displacement_encodeAt (cell : Nat) (code : List Op) :
    displacement (encodeAt cell code) = displacement code := by
  simp [encodeAt, Op.displacement]

theorem displacement_targets (targets : List Nat) :
    displacement (targets.flatMap (encodeAt · [.increment])) = 0 := by
  induction targets with
  | nil => rfl
  | cons target rest ih =>
    rw [List.flatMap_cons, displacement_append, displacement_encodeAt, ih]
    rfl

/-- The code of an instruction ends where it begins. -/
theorem displacement_encode {instr : Instr Nat} (h : instr.isMove = false) :
    displacement (encode instr) = 0 := by
  cases instr with
  | right | left => cases h
  | define | comment => rfl
  | copy source targets =>
    rw [encode, encodeCopy_eq, displacement_encodeAt]
    simp [displacement_targets, Op.displacement]
  | add | sub | set | openLoop | closeLoop | read | write =>
    simp [encode, displacement_encodeAt, Op.displacement]

/-! ## Where an instruction works -/

/-- The cell that an instruction names first. -/
def Instr.firstCell (instr : Instr Nat) : Nat := (instr.operands.head?.map Prod.snd).getD 0

/-- An operation of the code of an instruction that is not a move is carried out at a cell that the
instruction names, and a bracket at the first of them. -/
structure WorksAt (instr : Instr Nat) (x : Int × Op) : Prop where
  named : ¬x.2.IsMove → ∃ cell, (.cell, cell) ∈ instr.operands ∧ x.1 = cell
  bracket : x.2.bracket? ≠ none → x.1 = instr.firstCell

theorem worksAt_of_isMove {instr : Instr Nat} {x : Int × Op} (h : x.2.IsMove) :
    WorksAt instr x := by
  refine ⟨fun hmove => absurd h hmove, fun hbracket => absurd ?_ hbracket⟩
  rcases h with h | h
  · rw [h]
    rfl
  · rw [h]
    rfl

theorem mem_alongFrom_encodeAt {d : Int} {cell : Nat} {code : List Op} {x : Int × Op}
    (h : x ∈ alongFrom d (encodeAt cell code)) : x.2.IsMove ∨ x ∈ alongFrom (d + cell) code := by
  rw [encodeAt, alongFrom_append, alongFrom_append, displacement_replicate, Op.displacement,
    Int.mul_one] at h
  rcases List.mem_append.1 h with h | h
  · rcases List.mem_append.1 h with h | h
    · exact .inl (.inl (List.eq_of_mem_replicate (mem_of_mem_alongFrom h)))
    · exact .inr h
  · exact .inl (.inr (List.eq_of_mem_replicate (mem_of_mem_alongFrom h)))

/-- Code that is carried out at the first operand of an instruction. -/
theorem worksAt_encodeAt {instr : Instr Nat} {cell : Nat} {rest : List (Role × Nat)}
    (hinstr : instr.operands = (.cell, cell) :: rest) {code : List Op}
    (hcode : ∀ op ∈ code, op.displacement = 0) :
    ∀ x ∈ alongFrom 0 (encodeAt cell code), WorksAt instr x := by
  intro x hx
  rcases mem_alongFrom_encodeAt hx with hmove | hx
  · exact worksAt_of_isMove hmove
  · have hd := eq_of_mem_alongFrom hcode hx
    rw [Int.zero_add] at hd
    refine ⟨fun _ => ⟨cell, ?_, hd⟩, fun _ => ?_⟩
    · rw [hinstr]
      exact List.mem_cons_self
    · rw [hd, Instr.firstCell, hinstr]
      rfl

theorem worksAt_targets (source : Nat) (targets : List Nat) :
    ∀ x ∈ alongFrom 0 (targets.flatMap (encodeAt · [.increment])),
      WorksAt (.copy source targets) x := by
  intro x hx
  rw [alongFrom_flatMap fun target _ => displacement_encodeAt target [.increment]] at hx
  obtain ⟨target, hmem, hx⟩ := List.mem_flatMap.1 hx
  rcases mem_alongFrom_encodeAt hx with hmove | hx
  · exact worksAt_of_isMove hmove
  · rw [Int.zero_add] at hx
    rw [List.mem_singleton.1 hx]
    exact ⟨fun _ => ⟨target, List.mem_cons_of_mem _ (List.mem_map_of_mem hmem), rfl⟩,
      fun h => absurd rfl h⟩

/-- The moves of a copy take it to its source, back to the start of the row, to each target and
back, to the source again, and back. -/
theorem worksAt_encodeCopy (source : Nat) (targets : List Nat) :
    ∀ x ∈ alongFrom 0 (encodeCopy source targets), WorksAt (.copy source targets) x := by
  have hsource : ∀ {d : Int} {op : Op}, d = source → WorksAt (.copy source targets) (d, op) :=
    fun h => ⟨fun _ => ⟨source, List.mem_cons_self, h⟩, fun _ => h⟩
  have hright : ∀ {d n x}, x ∈ alongFrom d (List.replicate n .right) →
      WorksAt (.copy source targets) x := fun h =>
    worksAt_of_isMove (.inl (List.eq_of_mem_replicate (mem_of_mem_alongFrom h)))
  have hleft : ∀ {d n x}, x ∈ alongFrom d (List.replicate n .left) →
      WorksAt (.copy source targets) x := fun h =>
    worksAt_of_isMove (.inr (List.eq_of_mem_replicate (mem_of_mem_alongFrom h)))
  intro x hx
  simp only [encodeCopy, alongFrom_append, displacement_append, displacement_replicate,
    displacement_targets, displacement_cons, displacement_nil, Op.displacement, alongFrom,
    List.mem_append, List.mem_cons, List.not_mem_nil, or_false] at hx
  rcases hx with (((((hx | rfl | rfl) | hx) | hx) | hx) | rfl) | hx
  · exact hright hx
  · exact hsource (by omega)
  · exact hsource (by omega)
  · exact hleft hx
  · rw [show (0 : Int) + (source * 1 + (0 + (0 + 0)) + source * -1) = 0 by omega] at hx
    exact worksAt_targets source targets x hx
  · exact hright hx
  · exact hsource (by omega)
  · exact hleft hx

/-- Every operation of an instruction that is not a move works at one of its cells. -/
theorem worksAt_encode {instr : Instr Nat} (h : instr.isMove = false) :
    ∀ x ∈ alongFrom 0 (encode instr), WorksAt instr x := by
  have hmany : ∀ {n : Nat} {op : Op}, op.displacement = 0 →
      ∀ other ∈ List.replicate n op, other.displacement = 0 :=
    fun hop other hmem => by rwa [List.eq_of_mem_replicate hmem]
  cases instr with
  | right | left => cases h
  | define | comment => exact fun _ hx => absurd hx List.not_mem_nil
  | add | sub => exact worksAt_encodeAt rfl (hmany rfl)
  | set => exact worksAt_encodeAt rfl (List.forall_mem_append.2 ⟨by decide, hmany rfl⟩)
  | copy source targets => exact worksAt_encodeCopy source targets
  | openLoop | closeLoop | read | write => exact worksAt_encodeAt rfl (by decide)

/-! ## Positions in the code of instructions -/

/-- The cell that is named first by the instruction in whose code a position is. -/
def cellAt : List (Instr Nat) → Nat → Nat
  | [], _ => 0
  | instr :: rest, position =>
    if position < (encode instr).length then instr.firstCell
    else cellAt rest (position - (encode instr).length)

section

variable {instrs : List (Instr Nat)} {position : Nat}

theorem displacement_encode_all (h : ∀ instr ∈ instrs, instr.isMove = false) :
    displacement (instrs.flatMap encode) = 0 := by
  induction instrs with
  | nil => rfl
  | cons instr rest ih =>
    rw [List.forall_mem_cons] at h
    rw [List.flatMap_cons, displacement_append, displacement_encode h.1, ih h.2]
    rfl

/-- Only the instruction in whose code a position is counts. -/
theorem offset_encode_append {before : List (Instr Nat)}
    (h : ∀ instr ∈ before, instr.isMove = false) (after : List (Instr Nat)) (i : Nat) :
    offset ((before ++ after).flatMap encode) ((before.flatMap encode).length + i) =
      offset (after.flatMap encode) i := by
  rw [List.flatMap_append, offset_append, displacement_encode_all h, Int.zero_add]

/-- In front of a bracket the head is displaced to the cell of its instruction. -/
theorem offset_eq_cellAt (h : ∀ instr ∈ instrs, instr.isMove = false) {op : Op}
    (hop : (instrs.flatMap encode)[position]? = some op) (hbracket : op.bracket? ≠ none) :
    offset (instrs.flatMap encode) position = cellAt instrs position := by
  induction instrs generalizing position with
  | nil => cases hop
  | cons instr rest ih =>
    rw [List.forall_mem_cons] at h
    rw [List.flatMap_cons] at hop ⊢
    rw [cellAt]
    split
    · next hlt =>
      rw [List.getElem?_append_left hlt] at hop
      rw [offset_append_of_le (Nat.le_of_lt hlt), ← Int.zero_add (offset _ _)]
      exact (worksAt_encode h.1 _ (mem_alongFrom hop 0)).bracket hbracket
    · next hge =>
      obtain ⟨k, rfl⟩ := Nat.exists_eq_add_of_le (Nat.le_of_not_lt hge)
      rw [List.getElem?_append_right (Nat.le_add_right _ k), Nat.add_sub_cancel_left] at hop
      rw [offset_append, displacement_encode h.1, Int.zero_add, Nat.add_sub_cancel_left]
      exact ih h.2 hop

/-! ## Loops by their cells -/

/-- A piece of code with a label for its bracket. -/
def labelled {κ : Type} (label : κ) (op : Op) : Piece Command κ := op.piece.map id fun _ => label

/-- The code of instructions with each bracket labelled by the cell that its instruction names
first. -/
def labelledCode {κ : Type} (f : Nat → κ) (instrs : List (Instr Nat)) : List (Piece Command κ) :=
  instrs.flatMap fun instr => (encode instr).map (labelled (f instr.firstCell))

variable {κ : Type} {f : Nat → κ}

theorem bracket?_labelled (label : κ) (op : Op) : (labelled label op).bracket? = op.bracket? := by
  cases op <;> rfl

theorem bracket?_labelledCode (f : Nat → κ) (instrs : List (Instr Nat)) :
    (labelledCode f instrs).map Piece.bracket? = (instrs.flatMap encode).map Op.bracket? := by
  have hpart : ∀ label : κ, Piece.bracket? ∘ labelled label = Op.bracket? := fun label =>
    funext (bracket?_labelled label)
  simp only [labelledCode, List.map_flatMap, List.map_map, hpart]

theorem label?_labelled {label other : κ} {op : Op} (h : (labelled label op).label? = some other) :
    other = label := by
  cases op with
  | openLoop | closeLoop => exact (Option.some.inj h).symm
  | increment | decrement | right | left | read | write => cases h

theorem eq_of_labelAt {label : κ} (h : labelAt (labelledCode f instrs) position = some label) :
    label = f (cellAt instrs position) := by
  induction instrs generalizing position with
  | nil => cases h
  | cons instr rest ih =>
    rw [labelAt, labelledCode, List.flatMap_cons] at h
    rw [cellAt]
    split
    · next hlt =>
      rw [List.getElem?_append_left (by rwa [List.length_map]), List.getElem?_map,
        List.getElem?_eq_getElem hlt] at h
      exact label?_labelled h
    · next hge =>
      rw [List.getElem?_append_right (by rw [List.length_map]; exact Nat.le_of_not_lt hge),
        List.length_map] at h
      exact ih h

theorem closes_labelled {code : List Op} (h : Nested code) (label : κ) (labels : List κ)
    (ps : List (Piece Command κ)) :
    Closes labels (code.map (labelled label) ++ ps) ↔ Closes labels ps := by
  obtain ⟨nest, hnest⟩ := WellNested.exists_nest h
  have hpieces : code.map (labelled label) = (nest.map id fun _ => label).pieces := by
    rw [pieces_map, hnest, List.map_map]
    rfl
  rw [hpieces]
  exact closes_pieces_append _ labels ps

theorem closes_labelled_encodeAt (cell : Nat) (op : Op) (label : κ) (labels : List κ)
    (ps : List (Piece Command κ)) :
    Closes labels ((encodeAt cell [op]).map (labelled label) ++ ps) ↔
      Closes labels
        (labelled label op :: ((List.replicate cell .left).map (labelled label) ++ ps)) := by
  rw [encodeAt, List.append_assoc, List.map_append, List.append_assoc,
    closes_labelled (nested_right cell), List.map_append, List.append_assoc]
  exact Iff.rfl

/-- The labelled code closes the loops that the instructions close. -/
theorem closes_labelledCode (labels : List κ) :
    Closes labels (labelledCode f instrs) ↔
      Closes labels (instrs.map fun instr => (instr.map f).piece) := by
  induction instrs generalizing labels with
  | nil => exact Iff.rfl
  | cons instr rest ih =>
    rw [labelledCode, List.flatMap_cons, ← labelledCode, List.map_cons]
    cases hbracket : instr.bracket? with
    | none =>
      have hpiece := (instr.map f).piece_of_bracket? (by rw [Instr.bracket?_map, hbracket])
      rw [closes_labelled (nested_encode (instr.piece_of_bracket? hbracket)), ih, hpiece]
      exact Iff.rfl
    | some bracket =>
      cases instr with
      | openLoop cell =>
        rw [encode, closes_labelled_encodeAt]
        refine (closes_labelled (nested_left cell) _ (f cell :: labels) _).trans ?_
        exact ih (f cell :: labels)
      | closeLoop cell =>
        rw [encode, closes_labelled_encodeAt]
        cases labels with
        | nil => exact Iff.rfl
        | cons innermost labels =>
          refine and_congr_right fun _ => ?_
          exact (closes_labelled (nested_left cell) _ labels _).trans (ih labels)
      | _ => cases hbracket

/-- If each end names the cell of its loop, up to `f`, then so do partners. -/
theorem cellAt_eq_of_partner? {machine : Program}
    (h : Program.ofCode? (instrs.flatMap encode) = some machine)
    (hnested : WellNested (instrs.map fun instr => (instr.map f).piece)) {p q : Nat}
    (hpartner : machine.jumps.partner? p = some q) : f (cellAt instrs p) = f (cellAt instrs q) := by
  have hlabels : WellNested (labelledCode f instrs) := (closes_labelledCode []).2 hnested
  obtain ⟨nest, hnest, hpairs⟩ := exists_pairs_of_ofCode? h
  have hfound : bracketPairs ((labelledCode f instrs).map Piece.bracket?) =
      some (nest.pairsFrom 0) := by
    rw [bracket?_labelledCode, ← hnest, bracketPairs_ops]
  have hsame := sameLabel_of_bracketPairs hlabels hfound
  rcases (hpairs p q).1 hpartner with hpair | hpair
  · obtain ⟨label, hp, hq⟩ := hsame _ hpair
    exact (eq_of_labelAt hp).symm.trans (eq_of_labelAt hq)
  · obtain ⟨label, hq, hp⟩ := hsame _ hpair
    exact (eq_of_labelAt hp).symm.trans (eq_of_labelAt hq)

end

/-! ## Runs of instructions -/

/-- The head is where instructions bring it if their row begins at `start`. -/
structure OnRow (instrs : List (Instr Nat)) (start : Int) (state : State) : Prop where
  /-- Between two instructions it is at the start of the row. -/
  parked : ∀ before after, instrs = before ++ after →
    state.counter = (before.flatMap encode).length →
    state.tape.head = start % state.tape.size
  /-- In the code of an instruction it is as far from there as the moves before it bring it. -/
  inside : ∀ before instr after i, instrs = before ++ instr :: after → i ≤ (encode instr).length →
    state.counter = (before.flatMap encode).length + i →
    state.tape.head = (start + offset (encode instr) i) % state.tape.size
  /-- An operation other than a move is at a cell that is an operand of its instruction. -/
  addressed : ∀ before instr after i op, instrs = before ++ instr :: after →
    (encode instr)[i]? = some op → ¬op.IsMove →
    state.counter = (before.flatMap encode).length + i →
    ∃ cell, (.cell, cell) ∈ instr.operands ∧
      state.tape.head = (start + cell) % state.tape.size

/-- A head that is displaced as far as its position in the code says is on the row. -/
theorem onRow_of_modEq {instrs : List (Instr Nat)} (hstays : ∀ instr ∈ instrs, instr.isMove = false)
    {start : Int} {s : Snapshot} {position : Nat}
    (h : (s.tape.head : Int) ≡ start + offset (instrs.flatMap encode) position [ZMOD s.tape.size]) :
    OnRow instrs start (s.stateAt position) := by
  have hhead : (s.tape.head : Int) =
      (start + offset (instrs.flatMap encode) position) % s.tape.size := by
    rw [← h, Int.emod_eq_of_lt (Int.natCast_nonneg _) (Int.ofNat_lt.2 s.head_lt)]
  have hbehind : ∀ before after i, instrs = before ++ after →
      position = (before.flatMap encode).length + i →
      (s.tape.head : Int) = (start + offset (after.flatMap encode) i) % s.tape.size := by
    rintro before after i rfl rfl
    rw [hhead, offset_encode_append fun instr hmem => hstays instr (List.mem_append_left _ hmem)]
  have hinside : ∀ before instr after i, instrs = before ++ instr :: after →
      i ≤ (encode instr).length → position = (before.flatMap encode).length + i →
      (s.tape.head : Int) = (start + offset (encode instr) i) % s.tape.size := by
    intro before instr after i hinstrs hi hposition
    rw [hbehind before (instr :: after) i hinstrs hposition, List.flatMap_cons,
      offset_append_of_le hi]
  refine ⟨fun before after hinstrs hposition => ?_, hinside, ?_⟩
  · have hparked := hbehind before after 0 hinstrs hposition
    rwa [offset, List.take_zero, displacement_nil, Int.add_zero] at hparked
  · intro before instr after i op hinstrs hop hmove hposition
    have hi : i < (encode instr).length := (List.getElem?_eq_some_iff.1 hop).1
    have hinstr : instr.isMove = false := hstays instr (by rw [hinstrs]; simp)
    obtain ⟨cell, hcell, hoffset⟩ := (worksAt_encode hinstr _ (mem_alongFrom hop 0)).named hmove
    rw [Int.zero_add] at hoffset
    exact ⟨cell, hcell, hoffset ▸ hinside before instr after i hinstrs hi.le hposition⟩

/-- How far the row has moved after `steps` steps: a jump from one bracket of a loop behind the
other moves it by the difference of the cells that these two name. -/
def rowDrift (instrs : List (Instr Nat)) (machine : Program) (steps : Nat) (state : State) : Int :=
  drift (fun position => cellAt instrs position) (jumpsMade machine steps state)

theorem rowDrift_eq {instrs : List (Instr Nat)} {machine : Program} {s : Snapshot} {steps : Nat}
    (hstays : ∀ instr ∈ instrs, instr.isMove = false)
    (h : Program.ofCode? (instrs.flatMap encode) = some machine)
    (hpartners : ∀ jump ∈ jumpsMade machine steps (s.stateAt 0),
      machine.jumps.partner? jump.1 = some jump.2) :
    drift (offset (instrs.flatMap encode)) (jumpsMade machine steps (s.stateAt 0)) =
      rowDrift instrs machine steps (s.stateAt 0) := by
  have hcell : ∀ {p q : Nat}, machine.jumps.partner? p = some q →
      offset (instrs.flatMap encode) q = cellAt instrs q := by
    intro p q hpartner
    obtain ⟨op, hop, hbracket⟩ := bracket_of_partner? h hpartner
    rw [ops_of_ofCode? h, List.getElem?_toArray] at hop
    exact offset_eq_cellAt hstays hop hbracket
  exact drift_congr fun jump hjump =>
    ⟨hcell (partner?_comm h (hpartners jump hjump)), hcell (hpartners jump hjump)⟩

theorem onRow_of_advance {instrs : List (Instr Nat)} {machine : Program}
    (hstays : ∀ instr ∈ instrs, instr.isMove = false)
    (h : Program.ofCode? (instrs.flatMap encode) = some machine) {s : Snapshot} {steps : Nat}
    {state : State} (hadvance : advance machine steps (s.stateAt 0) = .running state) :
    OnRow instrs (s.tape.head + rowDrift instrs machine steps (s.stateAt 0)) state ∧
      (WellNested (instrs.map fun instr => (instr.map (· % s.tape.size)).piece) →
        OnRow instrs s.tape.head state) := by
  obtain ⟨t, position, rfl, hsize⟩ := exists_snapshot_of_advance h hadvance
  obtain ⟨hhead, hpartners⟩ := head_of_advance h hadvance
  rw [rowDrift_eq hstays h hpartners, offset, List.take_zero, displacement_nil, Int.add_zero,
    ← hsize] at hhead
  constructor
  · refine onRow_of_modEq hstays ?_
    rwa [Int.add_right_comm] at hhead
  · intro hnested
    refine onRow_of_modEq hstays (hhead.trans ?_)
    have hdrift : rowDrift instrs machine steps (s.stateAt 0) ≡ 0 [ZMOD t.tape.size] := by
      refine drift_modEq_zero fun jump hjump => ?_
      have hcells := cellAt_eq_of_partner? h hnested (hpartners jump hjump)
      rw [hsize]
      exact Int.natCast_modEq_iff.2 hcells
    exact (hdrift.add_left _).trans (by rw [Int.add_zero])

/-- **The row moves with jumps between different cells.** Of a program that stays on its row and is
assembled into balanced code, wherever a run comes to: operands count from the cell where the head
was at the start, moved on by the jumps that the run has made. A jump between the brackets of one
instruction or of a loop whose end names the same cell does not move the row, round the ring; so if
all ends do, operands always count from the cell where the program was started. -/
theorem onRow_of_assemble {program : Numbered} {code : List Op}
    (hstays : ∀ entry ∈ program, entry.2.isMove = false)
    (hcode : assembleNumbered program = .ok code) (hbalanced : Balanced (code.map Op.bracket?)) :
    ∃ expanded instrs machine, expand program = .ok expanded ∧
      instrs = expanded.map (fun entry => entry.2.map Ref.toNat) ∧ code = instrs.flatMap encode ∧
      Program.ofCode? code = some machine ∧
      ∀ (s : Snapshot) (steps : Nat) (state : State),
        advance machine steps (s.stateAt 0) = .running state →
        OnRow instrs (s.tape.head + rowDrift instrs machine steps (s.stateAt 0)) state ∧
          (WellNested (instrs.map fun instr => (instr.map (· % s.tape.size)).piece) →
            OnRow instrs s.tape.head state) := by
  obtain ⟨expanded, hexpand, hencode⟩ := bind_eq_ok.1 hcode
  obtain ⟨machine, hmachine, -⟩ :=
    halted_iff_of_wellNested ((wellNested_iff_balanced code).2 hbalanced)
  have hexpanded := (expansion_of_expandFrom hexpand).isMove_eq_false hstays
  have hinstrs : ∀ instr ∈ expanded.map fun entry => entry.2.map Ref.toNat,
      instr.isMove = false := by
    rw [List.forall_mem_map]
    intro entry hmem
    rw [Instr.isMove_map, hexpanded entry hmem]
  refine ⟨expanded, _, machine, hexpand, rfl, encodeAll_eq hencode, hmachine, ?_⟩
  rw [encodeAll_eq hencode] at hmachine
  exact fun s steps state => onRow_of_advance hinstrs hmachine

/-- A loop at one cell ends three cells behind it. On a ring of three cells these are the same cell,
and the row stays; on a ring of four the loop is skipped, and the row moves. -/
theorem onRow_of_assemble_ring :
    (∀ entry ∈ numbered [.define "x" (.number 1), .openLoop (.name "x"),
        .sub (.name "x") (.number 1), .closeLoop (.number 4)], entry.2.isMove = false) ∧
      assembleNumbered (numbered [.define "x" (.number 1), .openLoop (.name "x"),
        .sub (.name "x") (.number 1), .closeLoop (.number 4)]) =
        .ok (readCode ">[< >-< >>>>]<<<<") ∧
      Balanced ((readCode ">[< >-< >>>>]<<<<").map Op.bracket?) ∧
      ∃ machine, Program.ofCode? (readCode ">[< >-< >>>>]<<<<") = some machine ∧
        (∃ state, advance machine 15 ((Snapshot.start #[0, 1, 0] (by decide) []).stateAt 0) =
            .running state ∧ state.counter = 15 ∧
          OnRow [.openLoop 1, .sub 1 1, .closeLoop 4] 0 state) ∧
        ∃ state, advance machine 6 ((Snapshot.start #[0, 0, 0, 0] (by decide) []).stateAt 0) =
            .running state ∧ state.counter = 15 ∧ state.tape.head = 1 ∧
          OnRow [.openLoop 1, .sub 1 1, .closeLoop 4] (-3) state := by
  have hstays : ∀ entry ∈ numbered [.define "x" (.number 1), .openLoop (.name "x"),
      .sub (.name "x") (.number 1), .closeLoop (.number 4)], entry.2.isMove = false := by decide
  have hcode : assembleNumbered (numbered [.define "x" (.number 1), .openLoop (.name "x"),
      .sub (.name "x") (.number 1), .closeLoop (.number 4)]) =
      .ok (readCode ">[< >-< >>>>]<<<<") := rfl
  have hbalanced : Balanced ((readCode ">[< >-< >>>>]<<<<").map Op.bracket?) := by decide
  obtain ⟨expanded, instrs, machine, hexpand, rfl, -, hmachine, hruns⟩ :=
    onRow_of_assemble hstays hcode hbalanced
  cases hexpand
  have hthree := hruns (.start #[0, 1, 0] (by decide) []) 15
  have hfour := hruns (.start #[0, 0, 0, 0] (by decide) []) 6
  refine ⟨hstays, hcode, hbalanced, machine, hmachine, ?_⟩
  cases hmachine
  exact ⟨⟨_, rfl, rfl, (hthree _ rfl).2 (by decide)⟩, _, rfl, rfl, rfl, (hfour _ rfl).1⟩

/-- A loop whose end names another cell is skipped, and the next instruction is begun there. -/
theorem not_onRow_of_skipped :
    ¬∀ (program expanded : Numbered) (code : List Op) (machine : Program) (s : Snapshot)
      (steps : Nat) (state : State), (∀ entry ∈ program, entry.2.isMove = false) →
      expand program = .ok expanded → assembleNumbered program = .ok code →
      Program.ofCode? code = some machine → advance machine steps (s.stateAt 0) = .running state →
      OnRow (expanded.map fun entry => entry.2.map Ref.toNat) s.tape.head state := by
  intro h
  have hrow := h (numbered [.openLoop (.number 1), .closeLoop (.number 0),
    .set (.number 0) (.number 5)]) _ _ _ (.start #[0, 0, 0] (by decide) []) 2 _ (by decide) rfl rfl
    rfl rfl
  exact absurd (hrow.parked [.openLoop 1, .closeLoop 0] [.set 0 5] rfl rfl) (by decide)

end TapeCompiler.Asm
