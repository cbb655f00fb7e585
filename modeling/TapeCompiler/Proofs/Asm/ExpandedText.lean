import TapeCompiler.Proofs.Asm.Appending
import TapeCompiler.Proofs.Asm.Counts
import TapeCompiler.Proofs.Asm.Readable
/-!
# Texts after expansion

The expansion of a text is a text without definitions and comments, one line for each instruction
that is left. Expanding it again changes nothing, and it is assembled as the text was from which it
came: to the same code, or to the same fault, which is then at the place of its instruction among
those that are left (`expandText_transparent`).
-/
namespace TapeCompiler.Asm

/-! ## Encoding without lines -/

/-- The code of instructions that have no lines. A fault comes with the place of its instruction. -/
def encodePlaces : List (Instr Ref) → Except (Nat × Fault) (List Op)
  | [] => .ok []
  | instr :: rest =>
    match encodeRef instr with
    | .error fault => .error (0, fault)
    | .ok code => match encodePlaces rest with
      | .error (place, fault) => .error (place + 1, fault)
      | .ok more => .ok (code ++ more)

section

variable {program expanded : Numbered} {definitions : Definitions}

theorem encodeAll_eq_ok {code : List Op} :
    encodeAll program = .ok code ↔ encodePlaces (program.map Prod.snd) = .ok code := by
  induction program generalizing code with
  | nil => simp [encodeAll, encodePlaces]
  | cons entry rest ih =>
    obtain ⟨line, instr⟩ := entry
    rw [List.map_cons, encodeAll, encodePlaces]
    cases encodeRef instr with
    | error fault => simp
    | ok first =>
      simp only [bind_eq_ok, ih]
      cases encodePlaces (rest.map Prod.snd) with
      | error e => simp
      | ok more => simp [pure, Except.pure]

/-- The lines of a program show in its errors alone. -/
theorem encodeAll_eq_error {error : Error} :
    encodeAll program = .error error ↔ ∃ place line, (program.map Prod.fst)[place]? = some line ∧
      encodePlaces (program.map Prod.snd) = .error (place, error.fault) ∧
      error.line = (line : Nat) := by
  obtain ⟨errorLine, fault⟩ := error
  induction program with
  | nil => simp [encodeAll]
  | cons entry rest ih =>
    obtain ⟨line, instr⟩ := entry
    rw [List.map_cons, List.map_cons, encodeAll, encodePlaces]
    cases encodeRef instr with
    | error fault =>
      constructor
      · rintro ⟨⟩
        exact ⟨0, line, rfl, rfl, rfl⟩
      · rintro ⟨place, line', hline, hfault, rfl⟩
        cases hfault
        cases hline
        rfl
    | ok first =>
      have hbind : (do return first ++ (← encodeAll rest)) = Except.error ⟨errorLine, fault⟩ ↔
          encodeAll rest = .error ⟨errorLine, fault⟩ := by
        cases encodeAll rest <;> simp [bind, Except.bind, pure, Except.pure]
      refine hbind.trans (ih.trans ?_)
      constructor
      · rintro ⟨place, line', hline, hfault, heq⟩
        refine ⟨place + 1, line', hline, ?_, heq⟩
        simp only [hfault]
      · rintro ⟨place, line', hline, hfault, heq⟩
        cases hrest : encodePlaces (rest.map Prod.snd) with
        | error stop =>
          simp only [hrest] at hfault
          cases hfault
          exact ⟨stop.1, line', hline, rfl, heq⟩
        | ok more =>
          simp only [hrest] at hfault
          cases hfault

/-- If no two instructions have the same line, an error at a line is one at a place. -/
theorem encodeAll_eq_error_at {place line : Nat} (hnodup : (program.map Prod.fst).Nodup)
    (hline : (program.map Prod.fst)[place]? = some line) {fault : Fault} :
    encodeAll program = .error ⟨line, fault⟩ ↔
      encodePlaces (program.map Prod.snd) = .error (place, fault) := by
  rw [encodeAll_eq_error]
  constructor
  · rintro ⟨other, otherLine, hother, hstop, heq⟩
    have hlt : other < (program.map Prod.fst).length := (List.getElem?_eq_some_iff.1 hother).1
    obtain rfl : other = place := by
      refine (List.getElem?_inj hlt hnodup).1 ?_
      rw [hother, hline, Int.ofNat_inj.1 heq]
    exact hstop
  · exact fun hstop => ⟨place, line, hline, hstop, rfl⟩

/-! ## Lines -/

theorem lines_of_readLines {texts : List String} {line : Nat}
    (h : readLines line texts = .ok program) :
    (program.map Prod.fst).Pairwise (· < ·) ∧ ∀ n ∈ program.map Prod.fst, line ≤ n := by
  induction texts generalizing line program with
  | nil =>
    cases h
    simp
  | cons text rest ih =>
    rw [readLines] at h
    split at h
    · cases h
    · obtain ⟨hpairwise, hle⟩ := ih h
      exact ⟨hpairwise, fun n hmem => Nat.le_of_succ_le (hle n hmem)⟩
    · obtain ⟨more, hmore, h⟩ := bind_eq_ok.1 h
      cases h
      obtain ⟨hpairwise, hle⟩ := ih hmore
      rw [List.map_cons, List.pairwise_cons, List.forall_mem_cons]
      exact ⟨⟨hle, hpairwise⟩, Nat.le_refl line, fun n hmem => Nat.le_of_succ_le (hle n hmem)⟩

/-- The instructions of a program that are no definitions. -/
def remaining (program : Numbered) : Numbered := program.filter fun entry => !entry.2.isDefine

theorem Expansion.lines_eq (h : Expansion definitions program expanded) :
    expanded.map Prod.fst = (remaining program).map Prod.fst := by
  induction h with
  | done => rfl
  | define _ _ ih => exact ih
  | keep hdefine _ ih =>
    rw [remaining, List.filter_cons_of_pos (by simp [hdefine]), ← remaining, List.map_cons,
      List.map_cons, ih]

/-- No two instructions that are left stand on one line. -/
theorem nodup_lines {source : String} (h : readProgram source = .ok program) :
    ((remaining program).map Prod.fst).Nodup := by
  have hsublist : ((remaining program).map Prod.fst).Sublist (program.map Prod.fst) :=
    List.filter_sublist.map Prod.fst
  exact ((lines_of_readLines h).1.sublist hsublist).imp Nat.ne_of_lt

/-! ## The text of an expansion -/

theorem map_fst_numbered (instrs : List (Instr Ref)) :
    (numbered instrs).map Prod.fst = List.range' 1 instrs.length := by
  rw [numbered, List.map_map, ← List.zipIdx_map_snd 1 instrs]
  rfl

/-- The lines of numbered instructions are their places, counted from one. -/
theorem encodeAll_numbered_eq_error {instrs : List (Instr Ref)} {place : Nat} {fault : Fault}
    (hplace : place < instrs.length) :
    encodeAll (numbered instrs) = .error ⟨place + 1, fault⟩ ↔
      encodePlaces instrs = .error (place, fault) := by
  have hnodup : ((numbered instrs).map Prod.fst).Nodup := by
    rw [map_fst_numbered]
    exact List.nodup_range'
  have hline : ((numbered instrs).map Prod.fst)[place]? = some (place + 1) := by
    rw [map_fst_numbered, List.getElem?_range' hplace, Nat.one_mul, Nat.add_comm]
  exact (encodeAll_eq_error_at hnodup hline).trans (by rw [map_snd_numbered])

theorem assemble_of_expand {source : String} (hread : readProgram source = .ok program)
    (hexpand : expand program = .ok expanded) : assemble source = encodeAll expanded := by
  rw [assemble, hread]
  exact congrArg (· >>= encodeAll) hexpand

theorem expandText_of_expand {source : String} (hread : readProgram source = .ok program)
    (hexpand : expand program = .ok expanded) :
    expandText source = .ok (render (expanded.map Prod.snd)) := by
  rw [expandText, hread]
  exact congrArg (· >>= fun expanded => .ok (render (expanded.map Prod.snd))) hexpand

theorem Instr.map_resolve_nil (instr : Instr Ref) : instr.map (Ref.resolve []) = instr := by
  have hresolve : Ref.resolve [] = id := by
    funext ref
    cases ref <;> rfl
  rw [hresolve]
  cases instr <;> simp [map]

theorem expand_of_not_define (h : ∀ entry ∈ program, entry.2.isDefine = false) :
    expand program = .ok program := by
  rw [expand, expandFrom_body h]
  simp [Instr.map_resolve_nil]

/-- What an expanded text is read as, and what it is expanded to. -/
theorem readProgram_expanded (hread : ∀ entry ∈ program, entry.2.Readable)
    (h : Expansion [] program expanded) :
    readProgram (render (expanded.map Prod.snd)) = .ok (numbered (expanded.map Prod.snd)) ∧
      expand (numbered (expanded.map Prod.snd)) = .ok (numbered (expanded.map Prod.snd)) := by
  have hreadable : ∀ instr ∈ expanded.map Prod.snd, instr.Readable :=
    List.forall_mem_map.2 (h.readable (fun _ hmem => absurd hmem List.not_mem_nil) hread)
  have hdefine : ∀ instr ∈ expanded.map Prod.snd, instr.isDefine = false :=
    List.forall_mem_map.2 h.isDefine
  have hentry : ∀ entry ∈ numbered (expanded.map Prod.snd), entry.2 ∈ expanded.map Prod.snd := by
    intro entry hmem
    have hsnd := List.mem_map_of_mem (f := Prod.snd) hmem
    rwa [map_snd_numbered] at hsnd
  constructor
  · rw [readProgram_render (fun instr hmem => (hreadable instr hmem).written)
      fun instr hmem => (hreadable instr hmem).short]
    refine congrArg Except.ok (List.filter_eq_self.2 fun entry hmem => ?_)
    rw [(hreadable entry.2 (hentry entry hmem)).not_comment]
    rfl
  · exact expand_of_not_define fun entry hmem => hdefine entry.2 (hentry entry hmem)

end

/-- **Expansion is transparent.** The expansion of a text is expanded to itself and assembled to
the same code as the text, or neither is assembled. An error of the text is at the line of one of
the instructions that are neither definitions nor comments; and the text has it at the line of one
of them exactly if the expansion has the same one at the place of that instruction among them. -/
theorem expandText_transparent {source text : String} (h : expandText source = .ok text) :
    expandText text = .ok text ∧
      (∀ code, assemble text = .ok code ↔ assemble source = .ok code) ∧
      ∃ program, readProgram source = .ok program ∧
        (∀ error, assemble source = .error error →
          ∃ (place line : Nat) (instr : Instr Ref),
            (remaining program)[place]? = some (line, instr) ∧ error.line = line) ∧
        ∀ (place line : Nat) (instr : Instr Ref),
          (remaining program)[place]? = some (line, instr) → ∀ fault,
            assemble source = .error ⟨line, fault⟩ ↔ assemble text = .error ⟨place + 1, fault⟩ := by
  obtain ⟨program, hprogram, h⟩ := bind_eq_ok.1 h
  obtain ⟨expanded, hexpand, h⟩ := bind_eq_ok.1 h
  cases h
  have hexpansion := expansion_of_expandFrom hexpand
  obtain ⟨hread, hsame⟩ := readProgram_expanded (readable_of_readProgram hprogram) hexpansion
  have hsource := assemble_of_expand hprogram hexpand
  have htext := assemble_of_expand hread hsame
  have hlines (place : Nat) : (expanded.map Prod.fst)[place]? =
      ((remaining program)[place]?).map Prod.fst := by
    rw [hexpansion.lines_eq, List.getElem?_map]
  refine ⟨?_, fun code => ?_, program, hprogram, fun error herror => ?_, ?_⟩
  · rw [expandText_of_expand hread hsame, map_snd_numbered]
  · rw [htext, hsource, encodeAll_eq_ok, encodeAll_eq_ok, map_snd_numbered]
  · rw [hsource, encodeAll_eq_error] at herror
    obtain ⟨place, line, hline, -, herror⟩ := herror
    rw [hlines] at hline
    obtain ⟨entry, hentry, rfl⟩ := Option.map_eq_some_iff.1 hline
    exact ⟨place, entry.1, entry.2, hentry, herror⟩
  · intro place line instr hentry fault
    have hline : (expanded.map Prod.fst)[place]? = some line := by
      rw [hlines, hentry]
      rfl
    have hplace : place < (expanded.map Prod.snd).length := by
      have hlt := (List.getElem?_eq_some_iff.1 hline).1
      rwa [List.length_map] at hlt ⊢
    rw [hsource, encodeAll_eq_error_at (hexpansion.lines_eq ▸ nodup_lines hprogram) hline, htext]
    exact (encodeAll_numbered_eq_error hplace).symm

/-- A name that is never defined stands on the fourth line of the text, in the second instruction
that is left. -/
theorem expandText_transparent_copy :
    expandText "set 0 007\n # note\n#define n 2\n\tcopy  0 n x" = .ok "set 0 7\ncopy 0 2 x\n" ∧
      expandText "set 0 7\ncopy 0 2 x\n" = .ok "set 0 7\ncopy 0 2 x\n" ∧
      assemble "set 0 7\ncopy 0 2 x\n" =
        .error ⟨2, .unresolvedOperand "x" (.copy (.number 0) [.number 2, .name "x"])⟩ := by
  have h : expandText "set 0 007\n # note\n#define n 2\n\tcopy  0 n x" =
      .ok "set 0 7\ncopy 0 2 x\n" := rfl
  obtain ⟨hagain, -, program, hprogram, -, hplace⟩ := expandText_transparent h
  obtain rfl : program = [(1, .set (.number 0) (.number 7)), (3, .define "n" (.number 2)),
      (4, .copy (.number 0) [.name "n", .name "x"])] :=
    Except.ok.inj (hprogram.symm.trans rfl)
  exact ⟨h, hagain, (hplace 1 4 (.copy (.number 0) [.name "n", .name "x"]) rfl _).1 rfl⟩

end TapeCompiler.Asm
