import TapeCompiler.Proofs.Asm.EncodeRuns
import TapeCompiler.Proofs.Except
/-!
# Encoded programs

A program that is encoded without a fault stands for instructions over numbers, and its code is
theirs, one after the other (`encodeAll_eq`). If its loops are well nested, the code has matching
brackets and does on every tape what the instructions mean (`codeRuns_encode_all`), so the machine
halts on it as the instructions do (`encodeAll_halts_iff`).
-/
namespace TapeCompiler.Asm

variable {s t : Snapshot}

/-! ## Sequences of instructions -/

/-- The instruction that a piece is written as. -/
def pieceInstr {α : Type} : Piece (Instr α) α → Instr α
  | .act instr => instr
  | .opening cell => .openLoop cell
  | .closing cell => .closeLoop cell

@[simp] theorem pieceInstr_piece {α : Type} (instr : Instr α) :
    pieceInstr instr.piece = instr := by
  cases instr <;> rfl

theorem piece_map {α β : Type} (f : α → β) (instr : Instr α) :
    (instr.map f).piece = instr.piece.map (Instr.map f) f := by
  cases instr <;> rfl

theorem flatMap_pieces (instrs : List (Instr Nat)) :
    (instrs.map Instr.piece).flatMap (fun p => encode (pieceInstr p)) = instrs.flatMap encode := by
  simp [List.flatMap_map]

/-- The code of a loop, brackets included, is a loop at the cell of its operand. -/
theorem encode_loop (cell : Nat) (body : List Op) :
    encode (.openLoop cell) ++ (body ++ encode (.closeLoop cell)) =
      encodeAt cell (.openLoop :: (List.replicate cell .left ++ body ++ List.replicate cell .right)
        ++ [.closeLoop]) := by
  simp [encode, encodeAt]

theorem flatMap_loop (cell : Nat) (body rest : Nest (Instr Nat) Nat) :
    (Nest.loop cell body rest).pieces.flatMap (fun p => encode (pieceInstr p)) =
      encodeAt cell (.openLoop :: (List.replicate cell .left
          ++ body.pieces.flatMap (fun p => encode (pieceInstr p))
          ++ List.replicate cell .right) ++ [.closeLoop])
        ++ rest.pieces.flatMap (fun p => encode (pieceInstr p)) := by
  rw [← encode_loop]
  simp [Nest.pieces, pieceInstr]

/-- Pieces that instructions are, brackets being brackets. -/
def Proper (ps : List (Piece (Instr Nat) Nat)) : Prop := ∀ p ∈ ps, (pieceInstr p).piece = p

theorem Proper.act {instr : Instr Nat} {rest : Nest (Instr Nat) Nat}
    (h : Proper (Nest.act instr rest).pieces) :
    instr.piece = .act instr ∧ Proper rest.pieces :=
  ⟨h (.act instr) (by simp [Nest.pieces]), fun p hp => h p (by simp [Nest.pieces, hp])⟩

theorem Proper.loop {cell : Nat} {body rest : Nest (Instr Nat) Nat}
    (h : Proper (Nest.loop cell body rest).pieces) : Proper body.pieces ∧ Proper rest.pieces :=
  ⟨fun p hp => h p (by simp [Nest.pieces, hp]), fun p hp => h p (by simp [Nest.pieces, hp])⟩

theorem proper_map_piece (instrs : List (Instr Nat)) : Proper (instrs.map Instr.piece) := by
  intro p hp
  obtain ⟨instr, _, rfl⟩ := List.mem_map.1 hp
  rw [pieceInstr_piece]

theorem nested_encode_nest {code : Nest (Instr Nat) Nat} (h : Proper code.pieces) :
    Nested (code.pieces.flatMap fun p => encode (pieceInstr p)) := by
  induction code with
  | done => rfl
  | act instr rest ih => exact (nested_encode h.act.1).append (ih h.act.2)
  | loop cell body rest ihb ih =>
    rw [flatMap_loop]
    have hbody := ((nested_left cell).append (ihb h.loop.1)).append (nested_right cell)
    exact (nested_encodeAt cell hbody.loop).append (ih h.loop.2)

/-- Encoding keeps the meaning of structured instructions. -/
theorem codeRuns_encode_nest {code : Nest (Instr Nat) Nat} (h : Proper code.pieces) :
    CodeRuns (code.pieces.flatMap fun p => encode (pieceInstr p)) s t ↔
      code.Runs tapeMeaning s t := by
  induction code generalizing s t with
  | done => exact codeRuns_nil
  | act instr rest ih =>
    rw [Nest.pieces, List.flatMap_cons, pieceInstr,
      codeRuns_append (nested_encode h.act.1) (nested_encode_nest h.act.2)]
    simp only [codeRuns_encode h.act.1, ih h.act.2]
    exact Iff.rfl
  | loop cell body rest ihb ih =>
    have hback := (nested_left cell).append (nested_encode_nest h.loop.1)
    have hbody := hback.append (nested_right cell)
    -- from one bracket to the other: back to the row, through the body, and to the cell again
    have hround : ∀ s t : Snapshot,
        CodeRuns (List.replicate cell .left
            ++ body.pieces.flatMap (fun p => encode (pieceInstr p)) ++ List.replicate cell .right)
          (s.travel cell) (t.travel cell) ↔ body.Runs tapeMeaning s t := by
      intro s t
      rw [codeRuns_append hback (nested_right cell)]
      simp only [codeRuns_append (nested_left cell) (nested_encode_nest h.loop.1), codeRuns_left,
        codeRuns_right, exists_eq_left, Snapshot.travel_travel, Int.add_right_neg,
        Snapshot.travel_zero, ihb h.loop.1]
      constructor
      · rintro ⟨m, hr, ht⟩
        exact travel_inj ht ▸ hr
      · intro hr
        exact ⟨t, hr, rfl⟩
    rw [flatMap_loop, codeRuns_append (nested_encodeAt cell hbody.loop) (nested_encode_nest h.loop.2)]
    simp only [codeRuns_loopAt hbody hround, ih h.loop.2]
    exact Iff.rfl

theorem nested_encode_all {instrs : List (Instr Nat)} (h : WellNested (instrs.map Instr.piece)) :
    Nested (instrs.flatMap encode) := by
  have hp := proper_map_piece instrs
  obtain ⟨code, hcode⟩ := h.exists_nest
  rw [← flatMap_pieces, ← hcode]
  exact nested_encode_nest (hcode ▸ hp)

theorem codeRuns_encode_all {instrs : List (Instr Nat)}
    (h : WellNested (instrs.map Instr.piece)) :
    CodeRuns (instrs.flatMap encode) s t ↔ Executes tapeMeaning (instrs.map Instr.piece) s t := by
  have hp := proper_map_piece instrs
  obtain ⟨code, hcode⟩ := h.exists_nest
  rw [← flatMap_pieces, ← hcode, executes_pieces]
  exact codeRuns_encode_nest (hcode ▸ hp)

/-! ## Operands -/

/-- The number that an operand stands for. A name that was not replaced stands for none. -/
def Ref.toNat : Ref → Nat
  | number n => n.toNat
  | name _ => 0

theorem traverse_eq_map {ε α β : Type} {f : α → Except ε β} {g : α → β}
    (hf : ∀ x y, f x = .ok y → y = g x) {instr : Instr α} {result : Instr β}
    (h : instr.traverse f = .ok result) : result = instr.map g := by
  cases instr with
  | comment text => exact (Except.ok.inj h).symm
  | define | right | left | openLoop | closeLoop | read | write =>
    obtain ⟨y, hy, h⟩ := bind_eq_ok.1 h
    rw [← Except.ok.inj h, hf _ y hy]
    rfl
  | add | sub | set =>
    obtain ⟨y, hy, h⟩ := bind_eq_ok.1 h
    obtain ⟨z, hz, h⟩ := bind_eq_ok.1 h
    rw [← Except.ok.inj h, hf _ y hy, hf _ z hz]
    rfl
  | copy source targets =>
    obtain ⟨y, hy, h⟩ := bind_eq_ok.1 h
    obtain ⟨zs, hzs, h⟩ := bind_eq_ok.1 h
    rw [← Except.ok.inj h, hf _ y hy, mapM_eq_map hf hzs]
    rfl

theorem offset_eq_toNat {instr : Instr Ref} {ref : Ref} {n : Nat}
    (h : ref.offset instr = .ok n) : n = ref.toNat := by
  cases ref with
  | name s => simp [Ref.offset] at h
  | number m =>
    rw [Ref.offset] at h
    split at h
    · simp at h
    · exact (Except.ok.inj h).symm

theorem offsets_eq_map {instr : Instr Ref} {result : Instr Nat}
    (h : instr.offsets = .ok result) : result = instr.map Ref.toNat := by
  obtain ⟨resolved, hr, h⟩ := bind_eq_ok.1 h
  split at h
  · rw [← Except.ok.inj h]
    exact traverse_eq_map (fun _ _ => offset_eq_toNat) hr
  · simp at h

theorem encodeRef_eq {instr : Instr Ref} {code : List Op} (h : encodeRef instr = .ok code) :
    code = encode (instr.map Ref.toNat) := by
  unfold encodeRef at h
  split at h
  · exact (Except.ok.inj h).symm
  · exact (Except.ok.inj h).symm
  · cases ho : instr.offsets with
    | error e => rw [ho] at h; simp [Except.map] at h
    | ok resolved =>
      rw [ho] at h
      rw [← offsets_eq_map ho]
      exact (Except.ok.inj h).symm

/-- The code of a program is the code of its instructions, one after the other. -/
theorem encodeAll_eq {program : Numbered} {code : List Op} (h : encodeAll program = .ok code) :
    code = (program.map fun entry => entry.2.map Ref.toNat).flatMap encode := by
  induction program generalizing code with
  | nil => exact (Except.ok.inj h).symm
  | cons entry rest ih =>
    obtain ⟨line, instr⟩ := entry
    rw [encodeAll] at h
    split at h
    · simp at h
    · next first hfirst =>
      obtain ⟨more, hmore, h⟩ := bind_eq_ok.1 h
      rw [← Except.ok.inj h, ih hmore, encodeRef_eq hfirst]
      simp

theorem map_snd_numbered (instrs : List (Instr Ref)) :
    (numbered instrs).map Prod.snd = instrs := by
  simp [numbered, Function.comp_def]

/-! ## Whole programs -/

/-- **The assembler is correct.** Well nested instructions that are encoded without a fault give
code that can be run. Started anywhere on a tape with cells it halts exactly where the instructions
end, with the same tape, head, output and input left; where they do not end it runs forever. -/
theorem encodeAll_halts_iff {instrs : List (Instr Ref)} {code : List Op}
    (hcode : encodeAll (numbered instrs) = .ok code)
    (hnested : WellNested (instrs.map Instr.piece)) :
    ∃ program, Machine.Program.ofCode? code = some program ∧
      ∀ s : Snapshot,
        (∀ steps fault state, Machine.advance program steps (s.stateAt 0) ≠ .failed fault state) ∧
        ∀ final, (∃ steps, Machine.advance program steps (s.stateAt 0) = .halted final) ↔
          ∃ t : Snapshot, final = t.stateAt code.length ∧
            Executes tapeMeaning (instrs.map fun instr => (instr.map Ref.toNat).piece) s t := by
  have hmap : (numbered instrs).map (fun entry => entry.2.map Ref.toNat) =
      instrs.map (Instr.map Ref.toNat) := by
    rw [← Function.comp_def (Instr.map Ref.toNat) Prod.snd, ← List.map_map, map_snd_numbered]
  have hpieces : instrs.map (fun instr => (instr.map Ref.toNat).piece) =
      (instrs.map (Instr.map Ref.toNat)).map Instr.piece := by
    rw [List.map_map]
    rfl
  have hresolved : WellNested ((instrs.map (Instr.map Ref.toNat)).map Instr.piece) := by
    have h := hnested.map (Instr.map Ref.toNat) Ref.toNat
    rw [List.map_map] at h ⊢
    exact (List.map_congr_left fun instr _ => (piece_map Ref.toNat instr).symm) ▸ h
  have hall := encodeAll_eq hcode
  rw [hmap] at hall
  subst hall
  obtain ⟨program, hprogram, hruns⟩ := Machine.halted_iff_of_wellNested (nested_encode_all hresolved)
  refine ⟨program, hprogram, fun s => ⟨(hruns s).1, fun final => ((hruns s).2 final).trans ?_⟩⟩
  rw [hpieces]
  exact exists_congr fun t => and_congr_right fun _ => codeRuns_encode_all hresolved

/-- Doubles one cell into the cell before it. -/
theorem encodeAll_halts_iff_double :
    encodeAll (numbered [.openLoop (.number 1), .sub (.number 1) (.number 1),
        .add (.number 0) (.number 2), .closeLoop (.number 1)]) =
      .ok (readCode ">[<>-<++>]<") ∧
    WellNested ([.openLoop (.number 1), .sub (.number 1) (.number 1),
        .add (.number 0) (.number 2), .closeLoop (.number 1)].map (Instr.piece (α := Ref))) ∧
    ∃ t : Snapshot, Executes tapeMeaning
        [.opening 1, .act (.sub 1 1), .act (.add 0 2), .closing 1]
        (.start #[0, 3] (by decide) []) t ∧ t.tape = ⟨#[6, 0], 0⟩ := by
  have hcode : encodeAll (numbered [.openLoop (.number 1), .sub (.number 1) (.number 1),
      .add (.number 0) (.number 2), .closeLoop (.number 1)]) =
      .ok (readCode ">[<>-<++>]<") := rfl
  have hnested : WellNested ([.openLoop (.number 1), .sub (.number 1) (.number 1),
      .add (.number 0) (.number 2), .closeLoop (.number 1)].map (Instr.piece (α := Ref))) := by
    decide
  refine ⟨hcode, hnested, ?_⟩
  obtain ⟨program, hprogram, hruns⟩ := encodeAll_halts_iff hcode hnested
  have hhalt : Machine.advance program 40 ((Snapshot.start #[0, 3] (by decide) []).stateAt 0) =
      .halted ⟨11, ⟨#[6, 0], 0⟩, [], #[]⟩ := by
    cases hprogram
    rfl
  obtain ⟨t, hfinal, ht⟩ := ((hruns _).2 _).1 ⟨40, hhalt⟩
  simp only [Snapshot.stateAt, Machine.State.mk.injEq] at hfinal
  exact ⟨t, ht, hfinal.2.1.symm⟩

end TapeCompiler.Asm
