import TapeCompiler.Proofs.Asm.Expansion
/-!
# Lines of faults

Instructions keep the numbers of their lines through every stage of the assembler, so an error names
the line of the instruction that is at fault (`concerns_of_assemble`).
-/
namespace TapeCompiler.Asm

open TapeCompiler.Text

/-- A text stands on line `n` of those of which the first has number `first`. -/
def StandsOn (first : Nat) (texts : List String) (n : Nat) (text : String) : Prop :=
  first ≤ n ∧ texts[n - first]? = some text

/-- What an instruction becomes, with some names replaced by numbers, has the fault. -/
def Instr.HasFault (fault : Fault) (instr : Instr Ref) : Prop :=
  (∃ s, fault = .unresolvedValue s instr) ∨
    ∃ definitions, encodeRef (instr.map (Ref.resolve definitions)) = .error fault

/-- The text on a line has the fault: it cannot be read, or the instruction that is read has it. -/
def TextHasFault (fault : Fault) (text : String) : Prop :=
  readLine text = .error fault ∨ ∃ instr, readLine text = .ok (some instr) ∧ instr.HasFault fault

section

variable {first n : Nat} {text other : String} {texts : List String} {e : Error}
  {definitions : Definitions} {program expanded : Numbered}

theorem StandsOn.head : StandsOn first (text :: texts) first text :=
  ⟨Nat.le_refl first, by rw [Nat.sub_self]; rfl⟩

theorem StandsOn.tail (h : StandsOn (first + 1) texts n text) :
    StandsOn first (other :: texts) n text := by
  refine ⟨Nat.le_of_succ_le h.1, ?_⟩
  rw [show n - first = n - (first + 1) + 1 by have := h.1; omega, List.getElem?_cons_succ]
  exact h.2

/-! ## Reading -/

theorem standsOn_of_readLines (h : readLines first texts = .ok program) :
    ∀ entry ∈ program, ∃ text, StandsOn first texts entry.1 text ∧
      readLine text = .ok (some entry.2) := by
  induction texts generalizing first program with
  | nil =>
    cases h
    exact fun _ hmem => absurd hmem List.not_mem_nil
  | cons line rest ih =>
    have hrest : ∀ {more : Numbered}, readLines (first + 1) rest = .ok more →
        ∀ entry ∈ more, ∃ text, StandsOn first (line :: rest) entry.1 text ∧
          readLine text = .ok (some entry.2) := by
      intro more hmore entry hmem
      obtain ⟨text, hstands, hread⟩ := ih hmore entry hmem
      exact ⟨text, hstands.tail, hread⟩
    rw [readLines] at h
    cases hline : readLine line with
    | error fault =>
      rw [hline] at h
      cases h
    | ok result =>
      rw [hline] at h
      cases result with
      | none => exact hrest h
      | some instr =>
        obtain ⟨more, hmore, h⟩ := bind_eq_ok.1 h
        cases h
        exact List.forall_mem_cons.2 ⟨⟨line, .head, hline⟩, hrest hmore⟩

theorem standsOn_of_readLines_error (h : readLines first texts = .error e) :
    ∃ n text, e.line = (n : Nat) ∧ StandsOn first texts n text ∧ readLine text = .error e.fault := by
  induction texts generalizing first with
  | nil => cases h
  | cons line rest ih =>
    have hrest : readLines (first + 1) rest = .error e → ∃ n text, e.line = (n : Nat) ∧
        StandsOn first (line :: rest) n text ∧ readLine text = .error e.fault := by
      intro hrest
      obtain ⟨n, text, hn, hstands, hread⟩ := ih hrest
      exact ⟨n, text, hn, hstands.tail, hread⟩
    rw [readLines] at h
    cases hline : readLine line with
    | error fault =>
      rw [hline] at h
      cases h
      exact ⟨first, line, rfl, .head, hline⟩
    | ok result =>
      rw [hline] at h
      cases result with
      | none => exact hrest h
      | some instr =>
        rcases bind_eq_error.1 h with h | ⟨more, _, h⟩
        · exact hrest h
        · cases h

/-! ## Expanding and encoding -/

/-- An instruction with its names replaced stands on the same line. -/
def Expands (program expanded : Numbered) : Prop :=
  ∀ entry ∈ expanded, ∃ instr definitions, (entry.1, instr) ∈ program ∧
    entry.2 = instr.map (Ref.resolve definitions)

theorem Expansion.expands (h : Expansion definitions program expanded) :
    Expands program expanded := by
  induction h with
  | done => exact fun _ hmem => absurd hmem List.not_mem_nil
  | define _ _ ih =>
    intro entry hmem
    obtain ⟨instr, table, hinstr, heq⟩ := ih entry hmem
    exact ⟨instr, table, List.mem_cons_of_mem _ hinstr, heq⟩
  | @keep definitions line instr rest expanded _ _ ih =>
    refine List.forall_mem_cons.2 ⟨⟨instr, definitions, List.mem_cons_self, rfl⟩, ?_⟩
    intro entry hmem
    obtain ⟨other, table, hother, heq⟩ := ih entry hmem
    exact ⟨other, table, List.mem_cons_of_mem _ hother, heq⟩

theorem eq_name_of_resolve {ref : Ref} {s : String} (h : ref.resolve definitions = .name s) :
    ref = .name s := by
  cases ref with
  | number n => cases h
  | name t =>
    rw [Ref.resolve] at h
    split at h
    · cases h
    · exact h

/-- Only a definition by a name stops the expansion. -/
theorem unresolved_of_expandFrom (h : expandFrom definitions program = .error e) :
    ∃ line name s, (line, .define name (.name s)) ∈ program ∧
      e = ⟨line, .unresolvedValue s (.define name (.name s))⟩ := by
  induction program generalizing definitions with
  | nil => cases h
  | cons entry rest ih =>
    obtain ⟨line, instr⟩ := entry
    cases hdefine : instr.isDefine with
    | true =>
      obtain ⟨name, value, rfl⟩ := instr.eq_define hdefine
      rw [expandFrom] at h
      cases hvalue : value.resolve definitions with
      | number n =>
        rw [hvalue] at h
        obtain ⟨line, name, s, hmem, heq⟩ := ih h
        exact ⟨line, name, s, List.mem_cons_of_mem _ hmem, heq⟩
      | name s =>
        rw [hvalue] at h
        obtain rfl := eq_name_of_resolve hvalue
        cases h
        exact ⟨line, name, s, List.mem_cons_self, rfl⟩
    | false =>
      rw [expandFrom_cons hdefine] at h
      obtain ⟨line, name, s, hmem, heq⟩ := ih (map_eq_error.1 h)
      exact ⟨line, name, s, List.mem_cons_of_mem _ hmem, heq⟩

theorem fault_of_encodeAll (h : encodeAll program = .error e) :
    ∃ entry ∈ program, e.line = entry.1 ∧ encodeRef entry.2 = .error e.fault := by
  induction program with
  | nil => cases h
  | cons entry rest ih =>
    obtain ⟨line, instr⟩ := entry
    rw [encodeAll] at h
    cases hinstr : encodeRef instr with
    | error fault =>
      rw [hinstr] at h
      cases h
      exact ⟨_, List.mem_cons_self, rfl, hinstr⟩
    | ok code =>
      rw [hinstr] at h
      rcases bind_eq_error.1 h with h | ⟨more, _, h⟩
      · obtain ⟨entry, hmem, hfault⟩ := ih h
        exact ⟨entry, List.mem_cons_of_mem _ hmem, hfault⟩
      · cases h

theorem hasFault_of_assembleNumbered (h : assembleNumbered program = .error e) :
    ∃ entry ∈ program, e.line = entry.1 ∧ entry.2.HasFault e.fault := by
  rcases bind_eq_error.1 h with h | ⟨expanded, hexpanded, h⟩
  · obtain ⟨line, name, s, hmem, rfl⟩ := unresolved_of_expandFrom h
    exact ⟨_, hmem, rfl, .inl ⟨s, rfl⟩⟩
  · obtain ⟨entry, hmem, hline, hfault⟩ := fault_of_encodeAll h
    obtain ⟨instr, definitions, hinstr, heq⟩ := (expansion_of_expandFrom hexpanded).expands entry hmem
    exact ⟨_, hinstr, hline, .inr ⟨definitions, heq ▸ hfault⟩⟩

/-- An error of the assembler is about the text on its line. -/
theorem concerns_of_assemble {source : String} (h : assemble source = .error e) :
    ∃ line text, e.line = (line : Nat) ∧ StandsOn 1 (lines source) line text ∧
      TextHasFault e.fault text := by
  rcases bind_eq_error.1 h with h | ⟨program, hprogram, h⟩
  · obtain ⟨line, text, hline, hstands, hfault⟩ := standsOn_of_readLines_error h
    exact ⟨line, text, hline, hstands, .inl hfault⟩
  · obtain ⟨entry, hmem, hline, hfault⟩ := hasFault_of_assembleNumbered h
    obtain ⟨text, hstands, hread⟩ := standsOn_of_readLines hprogram entry hmem
    exact ⟨entry.1, text, hline, hstands, .inr ⟨entry.2, hread, hfault⟩⟩

end

end TapeCompiler.Asm
