import TapeCompiler.Proofs.Asm.TapeMeaning
/-!
# Copying adds

The rounds of a copy end when the source is empty, and by then every target has grown by what the
source held, once for each time that it is named (`acts_copy_iff`). Only if a target is the source
cell itself, round the ring perhaps, may the rounds go on for ever.
-/
namespace TapeCompiler

namespace Snapshot

variable {s t : Snapshot} {k : Nat}

/-! ## Cells after changes -/

theorem eq_of_cells (hhead : s.tape.head = t.tape.head) (hinput : s.input = t.input)
    (houtput : s.output = t.output) (hcells : ∀ i : Nat, s.tape.cells[i]? = t.tape.cells[i]?) : s = t :=
  eq_of_heads (Array.ext_getElem? hcells) hhead hinput houtput

theorem cells_change (s : Snapshot) (k : Nat) (f : UInt8 → UInt8) (i : Nat) :
    (s.change k f).tape.cells[i]? =
      if s.place k = i then s.tape.cells[i]?.map f else s.tape.cells[i]? :=
  Array.getElem?_modify

theorem size_change (s : Snapshot) (k : Nat) (f : UInt8 → UInt8) :
    (s.change k f).tape.size = s.tape.size := Array.size_modify

theorem place_change (s : Snapshot) (k : Nat) (f : UInt8 → UInt8) (d : Int) :
    (s.change k f).place d = s.place d := by
  refine place_eq_of ?_
  rw [size_change]
  rfl

theorem cells_place (s : Snapshot) (k : Nat) : s.tape.cells[s.place k]? = some (s.value k) :=
  Array.getElem?_eq_getElem (s.place_lt k)

theorem value_eq_of {byte : UInt8} (h : s.tape.cells[s.place k]? = some byte) : s.value k = byte :=
  Option.some.inj ((s.cells_place k).symm.trans h)

/-- Adds a byte to every target. -/
def addAll (targets : List Nat) (b : UInt8) (s : Snapshot) : Snapshot :=
  targets.foldl (fun s target => s.change target (· + b)) s

theorem frame_addAll (targets : List Nat) (b : UInt8) (s : Snapshot) :
    (s.addAll targets b).tape.head = s.tape.head ∧ (s.addAll targets b).input = s.input ∧
      (s.addAll targets b).output = s.output ∧ ∀ d, (s.addAll targets b).place d = s.place d := by
  induction targets generalizing s with
  | nil => exact ⟨rfl, rfl, rfl, fun _ => rfl⟩
  | cons target rest ih =>
    obtain ⟨hhead, hinput, houtput, hplace⟩ := ih (s.change target (· + b))
    exact ⟨hhead, hinput, houtput, fun d => (hplace d).trans (place_change s target _ d)⟩

theorem size_addAll (targets : List Nat) (b : UInt8) (s : Snapshot) :
    (s.addAll targets b).tape.size = s.tape.size := by
  induction targets generalizing s with
  | nil => rfl
  | cons target rest ih => exact (ih (s.change target (· + b))).trans (size_change s target _)

/-- How many of the targets are the cell `i`. -/
def hits (s : Snapshot) (targets : List Nat) (i : Nat) : Nat :=
  targets.countP fun target : Nat => s.place target == i

theorem hits_cons (s : Snapshot) (target : Nat) (rest : List Nat) (i : Nat) :
    s.hits (target :: rest) i = s.hits rest i + if s.place target = i then 1 else 0 := by
  simp [hits, List.countP_cons]

theorem hits_change (s : Snapshot) (k : Nat) (f : UInt8 → UInt8) (targets : List Nat) (i : Nat) :
    (s.change k f).hits targets i = s.hits targets i := by
  simp only [hits, place_change]

theorem cells_addAll (targets : List Nat) (b : UInt8) (s : Snapshot) (i : Nat) :
    (s.addAll targets b).tape.cells[i]? =
      s.tape.cells[i]?.map (· + .ofNat (s.hits targets i) * b) := by
  induction targets generalizing s with
  | nil => simp [addAll, hits]
  | cons target rest ih =>
    rw [show s.addAll (target :: rest) b = (s.change target (· + b)).addAll rest b from rfl, ih,
      hits_change, cells_change, hits_cons]
    split
    · rw [Option.map_map, UInt8.ofNat_add]
      congr 1
      funext byte
      simp only [Function.comp]
      grind
    · rfl

end Snapshot

/-! ## The rounds of a copy -/

namespace Asm

open Snapshot

variable {s t : Snapshot} {source : Nat} {targets : List Nat}

/-- Adds the source to every target and clears it. -/
def bulkCopy (source : Nat) (targets : List Nat) (s : Snapshot) : Snapshot :=
  (s.addAll targets (s.value source)).change source fun _ => 0

/-- No target is the source cell. -/
def Apart (s : Snapshot) (source : Nat) (targets : List Nat) : Prop :=
  ∀ target ∈ targets, s.place target ≠ s.place source

theorem hits_source (h : Apart s source targets) : s.hits targets (s.place source) = 0 :=
  List.countP_eq_zero.2 fun target hmem => by simpa [beq_iff_eq] using h target hmem

theorem copyRound_eq (source : Nat) (targets : List Nat) (s : Snapshot) :
    copyRound source targets s = (s.change source (· - 1)).addAll targets 1 := rfl

theorem place_copyRound (d : Int) : (copyRound source targets s).place d = s.place d :=
  ((frame_addAll targets 1 _).2.2.2 d).trans (place_change s source _ d)

theorem hits_copyRound (i : Nat) :
    (copyRound source targets s).hits targets i = s.hits targets i := by
  simp only [hits, place_copyRound]

theorem cells_copyRound (h : Apart s source targets) (i : Nat) :
    (copyRound source targets s).tape.cells[i]? =
      if s.place source = i then s.tape.cells[i]?.map (· - 1)
      else s.tape.cells[i]?.map (· + .ofNat (s.hits targets i)) := by
  rw [copyRound_eq, cells_addAll, cells_change, hits_change]
  split
  · next hi =>
    subst hi
    simp [hits_source h, Function.comp_def]
  · simp

theorem cells_bulkCopy (i : Nat) :
    (bulkCopy source targets s).tape.cells[i]? =
      if s.place source = i then s.tape.cells[i]?.map fun _ => 0
      else s.tape.cells[i]?.map (· + .ofNat (s.hits targets i) * s.value source) := by
  rw [bulkCopy, cells_change, (frame_addAll targets _ s).2.2.2, cells_addAll]
  split
  · rw [Option.map_map]
    rfl
  · rfl

/-- A round takes one from the source and adds one to it for each target that falls on it. -/
theorem value_copyRound (source : Nat) (targets : List Nat) (s : Snapshot) :
    (copyRound source targets s).value source =
      s.value source - 1 + .ofNat (s.hits targets (s.place source)) := by
  refine value_eq_of ?_
  rw [place_copyRound, copyRound_eq, cells_addAll, cells_change, if_pos rfl, cells_place,
    hits_change]
  simp

theorem value_copyRound_of_apart (h : Apart s source targets) :
    (copyRound source targets s).value source = s.value source - 1 := by
  rw [value_copyRound, hits_source h]
  exact UInt8.add_zero _

theorem bulkCopy_zero (hzero : s.value source = 0) :
    bulkCopy source targets s = s := by
  obtain ⟨hhead, hinput, houtput, -⟩ := frame_addAll targets (s.value source) s
  refine eq_of_cells hhead hinput houtput fun i => ?_
  rw [cells_bulkCopy, hzero]
  split
  · next hi =>
    subst hi
    rw [cells_place, hzero]
    rfl
  · simp

/-- A round takes nothing away from what the copy does. -/
theorem bulkCopy_copyRound (h : Apart s source targets) :
    bulkCopy source targets (copyRound source targets s) = bulkCopy source targets s := by
  obtain ⟨hhead, hinput, houtput, -⟩ := frame_addAll targets (s.value source) s
  obtain ⟨hhead', hinput', houtput', -⟩ :=
    frame_addAll targets ((copyRound source targets s).value source) (copyRound source targets s)
  obtain ⟨hhead'', hinput'', houtput'', -⟩ := frame_addAll targets 1 (s.change source (· - 1))
  refine eq_of_cells (hhead'.trans (hhead''.trans hhead.symm))
    (hinput'.trans (hinput''.trans hinput.symm)) (houtput'.trans (houtput''.trans houtput.symm))
    fun i => ?_
  rw [cells_bulkCopy, cells_bulkCopy, place_copyRound, value_copyRound_of_apart h,
    cells_copyRound h, hits_copyRound]
  split
  · rw [Option.map_map]
    rfl
  · rw [Option.map_map]
    congr 1
    funext byte
    simp only [Function.comp]
    grind

/-- A copy whose targets are apart from its source always ends, and adds the source to the
targets. -/
theorem acts_copy_iff (h : Apart s source targets) :
    (Instr.copy source targets).Acts s t ↔ t = bulkCopy source targets s := by
  rw [Instr.Acts]
  generalize hn : (s.value source).toNat = n
  induction n generalizing s with
  | zero =>
    have hzero : s.value source = 0 := UInt8.toNat_inj.1 hn
    rw [bulkCopy_zero hzero]
    exact Repeat.iff_of_not (not_not_intro hzero)
  | succ n ih =>
    have hgo : s.value source ≠ 0 := by
      intro h
      rw [h] at hn
      simp at hn
    have hapart : Apart (copyRound source targets s) source targets := fun target hmem => by
      rw [place_copyRound, place_copyRound]
      exact h target hmem
    have hless : ((copyRound source targets s).value source).toNat = n := by
      rw [value_copyRound_of_apart h,
        UInt8.toNat_sub_of_le _ _ (by rw [UInt8.le_iff_toNat_le, hn]; simp), hn]
      simp
    rw [← bulkCopy_copyRound h, ← ih hapart hless]
    refine (Repeat.iff_of_test ?_).trans ?_
    · exact hgo
    · simp only [exists_eq_left]

end Asm

end TapeCompiler
