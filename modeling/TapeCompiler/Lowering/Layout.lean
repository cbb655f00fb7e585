import TapeCompiler.Asm.Instr
/-!
# The layout of a row

A row has one cell for each name, in the order in which the names first occur. So the offsets of a
layout are the numbers below its width, each taken by one name.
-/
namespace TapeCompiler

/-- The names of the cells of a row, from its first cell on (`SymbolTable`). -/
structure Layout where
  names : List String
  nodup : names.Nodup
  deriving Repr

namespace Layout

/-- A row without cells. -/
def empty : Layout := ⟨[], List.nodup_nil⟩

/-- Gives a name the next cell, unless it has one. -/
def insert (layout : Layout) (name : String) : Layout :=
  if h : name ∈ layout.names then layout
  else
    ⟨layout.names ++ [name], List.nodup_append.2 ⟨layout.nodup, by simp, by
      intro a ha b hb
      rw [List.mem_singleton.1 hb]
      exact fun e => h (e ▸ ha)⟩⟩

/-- The layout of names in the order of their first occurrences (`from_names`). -/
def ofNames (names : List String) : Layout := names.foldl insert empty

/-- The layout of code: some names come first, then what else the code touches
(`build_symbol_table`). -/
def ofCode (first : List String) (code : List (Asm.Instr Asm.Ref)) : Layout :=
  ofNames (first ++ code.flatMap Asm.Instr.cellNames)

/-- The number of cells in a row (`cell_size`). -/
def width (layout : Layout) : Nat := layout.names.length

/-- The offset of the cell of a name. -/
def offset? (layout : Layout) (name : String) : Option Nat := layout.names.idxOf? name

/-- All names with their offsets. -/
def symbols (layout : Layout) : List (String × Nat) := layout.names.zipIdx

theorem names_insert_of_mem {layout : Layout} {name : String} (h : name ∈ layout.names) :
    (layout.insert name).names = layout.names := by
  rw [insert, dif_pos h]

theorem names_insert_of_not_mem {layout : Layout} {name : String} (h : name ∉ layout.names) :
    (layout.insert name).names = layout.names ++ [name] := by
  rw [insert, dif_neg h]

@[simp] theorem mem_names_insert {layout : Layout} {name other : String} :
    other ∈ (layout.insert name).names ↔ other ∈ layout.names ∨ other = name := by
  unfold insert
  split
  · next h => exact ⟨.inl, fun h' => h'.elim id (· ▸ h)⟩
  · simp

theorem mem_names_ofNames {names : List String} {name : String} :
    name ∈ (ofNames names).names ↔ name ∈ names := by
  suffices h : ∀ layout : Layout,
      name ∈ (names.foldl insert layout).names ↔ name ∈ layout.names ∨ name ∈ names by
    simpa [ofNames, empty] using h empty
  induction names with
  | nil => simp
  | cons first rest ih =>
    intro layout
    rw [List.foldl_cons, ih, mem_names_insert, List.mem_cons, or_assoc]

theorem offset?_lt_width {layout : Layout} {name : String} {offset : Nat}
    (h : layout.offset? name = some offset) : offset < layout.width :=
  (List.idxOf?_eq_some_iff.1 h).1

end Layout

end TapeCompiler
