import TapeCompiler.Proofs.Lowering.Preserves
import TapeCompiler.Proofs.Source.Moveless
/-!
# Cleared cells

Code without moves fills no internal cell that it finds empty (`tidy_block`). Inside a gate this
does not hold, for there a flag is set; but the loop on a flag ends only when the flag is zero, so
the gate is left with its flag cleared, whether its inner code ran or not. Only the flag of a loop
is set again inside: while the round of a loop goes on, that flag is left out of account.
-/
namespace TapeCompiler

open TapeCompiler.Asm

/-! ## Worlds with empty cells -/

/-- On the same row still, where no internal cell has been filled, those in `but` left out of
account. -/
structure World.Settles (but : String → Prop) (w v : World) : Prop where
  row : v.row = w.row
  empty : ∀ x, isReserved x = true → ¬but x → w.get x = 0 → v.get x = 0

namespace World.Settles

variable {but but' : String → Prop} {w v u : World} {x : String} {b : UInt8}

theorem refl : w.Settles but w := ⟨rfl, fun _ _ _ h => h⟩

theorem trans (h : w.Settles but v) (h' : v.Settles but u) : w.Settles but u where
  row := h'.row.trans h.row
  empty x hx hbut hzero := h'.empty x hx hbut (h.empty x hx hbut hzero)

/-- A cell that is empty in the end may have been filled at the beginning. -/
theorem of_put (h : (w.put x b).Settles but v) (hx : v.get x = 0) : w.Settles but v where
  row := h.row
  empty y hy hbut hzero := by
    by_cases hyx : y = x
    · exact hyx ▸ hx
    · exact h.empty y hy hbut (by rwa [get_put_of_ne hyx])

theorem put_zero : w.Settles but (w.put x 0) where
  row := rfl
  empty y _ _ hzero := by
    by_cases hyx : y = x
    · exact hyx ▸ get_put_self
    · rwa [get_put_of_ne hyx]

/-- Variables may be filled. -/
theorem put_variable (hx : isReserved x = false) : w.Settles but (w.put x b) where
  row := rfl
  empty y hy _ hzero := by rwa [get_put_of_ne (ne_of_isReserved hx hy).symm]

theorem read (hx : isReserved x = false) : w.Settles but (w.read x) :=
  ⟨rfl, (put_variable hx).empty⟩

theorem write : w.Settles but (w.write x) := ⟨rfl, fun _ _ _ h => h⟩

theorem put_but (hx : but x) : w.Settles but (w.put x b) where
  row := rfl
  empty y _ hbut hzero := by
    have hyx : y ≠ x := fun he => hbut (he ▸ hx)
    rwa [get_put_of_ne hyx]

theorem mono (h : w.Settles but v) (hsub : ∀ x, but x → but' x) : w.Settles but' v :=
  ⟨h.row, fun x hx hbut => h.empty x hx fun hb => hbut (hsub x hb)⟩

/-- What is empty in the end need not be left out of account. -/
theorem close (h : w.Settles but v) (hzero : ∀ x, but x → v.get x = 0) : w.Settles but' v where
  row := h.row
  empty x hx _ hw := by
    by_cases hb : but x
    · exact hzero x hb
    · exact h.empty x hx hb hw

end World.Settles

/-! ## Tidy code -/

/-- Code that fills no internal cell that it finds empty, if the scratch cell is one of those. -/
def Code.Tidy (inside : Int → Prop) (but : String → Prop) (code : Code) : Prop :=
  ∀ w v, inside w.row → w.get scratchName = 0 → CodeOn inside code (some w) (some v) →
    w.Settles but v

variable {inside : Int → Prop} {but : String → Prop} {code first second inner body : Code}
  {w v : World} {flag x : String} {depth term : Int} {condition : Condition}

/-- However the inner code has run, a gate is left with its flag cleared. -/
theorem get_of_whenFlag (h : Code.Nested inner) {s : Option World}
    (hrun : CodeOn inside (whenFlag flag inner) s (some v)) : v.get flag = 0 := by
  rw [whenFlag_eq] at hrun
  exact get_of_codeOn_loop (h.append (nested_setCell flag 0)) hrun

namespace Code.Tidy

/-- Tidy code may begin with any cell filled but the scratch cell. -/
theorem settles_put {b : UInt8} (h : Tidy inside but code) (hx : x ≠ scratchName)
    (hw : inside w.row) (hscratch : w.get scratchName = 0)
    (hrun : CodeOn inside code (some (w.put x b)) (some v)) : (w.put x b).Settles but v := by
  have hw' : inside (w.put x b).row := hw
  have hscratch' : (w.put x b).get scratchName = 0 := by rwa [World.get_put_of_ne hx.symm]
  exact h (w.put x b) v hw' hscratch' hrun

theorem mono {but' : String → Prop} (h : Tidy inside but code) (hsub : ∀ x, but x → but' x) :
    Tidy inside but' code :=
  fun w v hw hscratch hrun => (h w v hw hscratch hrun).mono hsub

theorem nil : Tidy inside but [] := by
  intro w v _ _ hrun
  cases codeOn_nil.1 hrun
  exact .refl

theorem append (hf : Code.Nested first) (hs : Code.Nested second) (hscratch : ¬but scratchName)
    (hfirst : Tidy inside but first) (hsecond : Tidy inside but second) :
    Tidy inside but (first ++ second) := by
  intro w v hw hzero hrun
  obtain ⟨m, hm, hv⟩ := exists_of_codeOn_append hf hs hrun
  have hsettles := hfirst w m hw hzero hm
  exact hsettles.trans (hsecond m v (inside_of_codeOn hw hm)
    (hsettles.empty _ isReserved_scratchName hscratch hzero) hv)

/-- An instruction that changes a world by `f`. -/
theorem act {instr : Instr Ref} {f : World → World} (hact : instr.piece = .act instr)
    (hinstr : ∀ w v, instr.ActsOnRow w v ↔ v = f w) (hf : ∀ w : World, w.Settles but (f w)) :
    Tidy inside but [instr] := by
  intro w v hw _ hrun
  have hfw : inside (f w).row := (hf w).row.symm ▸ hw
  cases codeOn_nil.1 ((codeOn_act hact (hinstr w) hfw).1 hrun)
  exact hf w

theorem setCell {n : Int} (hx : n = 0 ∨ but x) : Tidy inside but [setCell x n] := by
  refine act rfl (fun _ _ => Iff.rfl) fun w => ?_
  rcases hx with rfl | hx
  · exact .put_zero
  · exact .put_but hx

theorem whenFlag (hnested : Code.Nested inner) (h : Tidy inside but inner) :
    Tidy inside but (TapeCompiler.whenFlag flag inner) := by
  intro w v hw hscratch hrun
  by_cases hflag : w.get flag = 0
  · cases (codeOn_whenFlag_clear hnested hflag).1 hrun
    exact .refl
  · obtain ⟨m, hm, hv⟩ := (codeOn_whenFlag_set hnested hw hflag).1 hrun
    obtain ⟨k, rfl, rfl⟩ := Option.map_eq_some_iff.1 hv.symm
    exact (h w k hw hscratch hm).trans .put_zero

/-- The rounds of a loop fill nothing that one round does not fill. -/
theorem loop (hnested : Code.Nested body) (hscratch : ¬but scratchName)
    (h : Tidy inside but body) :
    Tidy inside but (.openLoop (.name x) :: body ++ [.closeLoop (.name x)]) := by
  intro w v hw hzero hrun
  have hrepeat := (codeOn_loop hnested).1 hrun
  clear hrun
  generalize hs : some w = s at hrepeat
  generalize ht : some v = t at hrepeat
  induction hrepeat generalizing w with
  | done =>
    subst hs
    cases ht
    exact .refl
  | @again _ m _ _ first rest ih =>
    subst hs ht
    cases m with
    | none => cases rest.eq_of_not (by simp)
    | some m =>
      have hsettles := h w m hw hzero first
      exact hsettles.trans (ih m (inside_of_codeOn hw first)
        (hsettles.empty _ isReserved_scratchName hscratch hzero) rfl rfl)

/-! ## Gates -/

/-- A flag that is set first is cleared by its gate. -/
theorem setCell_whenFlag {n : Int} (hcode : Code.Nested code) (hinner : Code.Nested inner)
    (hscratch : ¬but scratchName) (hflag : flag ≠ scratchName) (h : Tidy inside but code)
    (h' : Tidy inside but inner) :
    Tidy inside but (TapeCompiler.setCell flag n :: code ++ TapeCompiler.whenFlag flag inner) := by
  intro w v hw hzero hrun
  have hflagged := (codeOn_setCell hw).1 hrun
  obtain ⟨m, -, hm⟩ := exists_of_codeOn_append hcode (nested_whenFlag flag hinner) hflagged
  have htidy := append hcode (nested_whenFlag flag hinner) hscratch h (whenFlag hinner h')
  exact (htidy.settles_put hflag hw hzero hflagged).of_put (get_of_whenFlag hinner hm)

theorem differenceInto_whenFlag {c : Comparison} (hinner : Code.Nested inner)
    (hflag : flag ≠ scratchName) (hx : c.name ≠ scratchName) (hxf : c.name ≠ flag)
    (h : Tidy inside but inner) :
    Tidy inside but (differenceInto flag c ++ TapeCompiler.whenFlag flag inner) := by
  intro w v hw hzero hrun
  obtain ⟨m, hm, hv⟩ :=
    exists_of_codeOn_append (nested_differenceInto flag c) (nested_whenFlag flag hinner) hrun
  cases (codeOn_differenceInto hw hzero hflag hx hxf).1 hm
  exact ((whenFlag hinner h).settles_put hflag hw hzero hv).of_put (get_of_whenFlag hinner hv)

theorem gateComparison {c : Comparison} (hinner : Code.Nested inner) (hdepth : 0 ≤ depth)
    (hterm : 0 ≤ term) (hname : isReserved c.name = false) (hscratch : ¬but scratchName)
    (h : Tidy inside but inner) :
    Tidy inside but (TapeCompiler.gateComparison depth term c inner) := by
  have hx := ne_of_isReserved hname isReserved_scratchName
  have hds := Flag.name_ne_scratchName (.difference depth term)
  have hxd := ne_of_isReserved hname (isReserved_name (.difference depth term) ⟨hdepth, hterm⟩)
  have hes := Flag.name_ne_scratchName (.equality depth term)
  unfold TapeCompiler.gateComparison
  cases c.test with
  | notEqual => exact differenceInto_whenFlag hinner hds hx hxd h
  | equal =>
    have hclear := nested_setCell (Flag.equality depth term).name 0
    exact setCell_whenFlag
      ((nested_differenceInto _ c).append (nested_whenFlag _ hclear)) hinner hscratch hes
      (differenceInto_whenFlag hclear hds hx hxd (setCell (.inl rfl))) h

theorem gate (hinner : Code.Nested inner) (hdepth : 0 ≤ depth) (hterm : 0 ≤ term)
    (hnames : ∀ c ∈ condition, isReserved c.name = false) (hscratch : ¬but scratchName)
    (h : Tidy inside but inner) :
    Tidy inside but (TapeCompiler.gate depth term condition inner) := by
  induction condition generalizing term with
  | nil => exact h
  | cons c rest ih =>
    rw [List.forall_mem_cons] at hnames
    exact gateComparison (nested_gate rest hinner) hdepth hterm hnames.1 hscratch
      (ih (by omega) hnames.2)

theorem gateLoop (hbody : Code.Nested body) (hdepth : 0 ≤ depth)
    (hnames : ∀ c ∈ condition, isReserved c.name = false)
    (h : Tidy inside (fun _ => False) body) :
    Tidy inside (fun _ => False) (TapeCompiler.gateLoop depth condition body) := by
  have hflag := Flag.name_ne_scratchName (.again depth)
  unfold TapeCompiler.gateLoop
  generalize (Flag.again depth).name = a at *
  have hbody' := hbody.append (nested_setCell a 1)
  have hgate : Code.Nested (TapeCompiler.gate depth 0 condition
      (body ++ [TapeCompiler.setCell a 1])) := nested_gate condition hbody'
  have hround : Code.Nested ([TapeCompiler.setCell a 0] ++
      TapeCompiler.gate depth 0 condition (body ++ [TapeCompiler.setCell a 1])) :=
    (nested_setCell a 0).append hgate
  -- while the rounds go on, the flag of the loop may be set
  have htidy : Tidy inside (· = a) ([TapeCompiler.setCell a 0] ++
      TapeCompiler.gate depth 0 condition (body ++ [TapeCompiler.setCell a 1])) :=
    append (nested_setCell a 0) hgate hflag.symm (setCell (.inl rfl))
      (gate hbody' hdepth Int.le_rfl hnames hflag.symm
        (append hbody (nested_setCell a 1) hflag.symm (h.mono fun _ => False.elim)
          (setCell (.inr rfl))))
  intro w v hw hzero hrun
  have hloop : CodeOn inside (.openLoop (.name a) :: ([TapeCompiler.setCell a 0] ++
      TapeCompiler.gate depth 0 condition (body ++ [TapeCompiler.setCell a 1]))
        ++ [.closeLoop (.name a)]) (some (w.put a 1)) (some v) := (codeOn_setCell hw).1 hrun
  have hsettles := (loop hround hflag.symm htidy).settles_put hflag hw hzero hloop
  have hcleared : v.get a = 0 := get_of_codeOn_loop hround hloop
  exact (hsettles.close fun x hx => hx ▸ hcleared).of_put hcleared

end Code.Tidy

/-! ## Statements -/

mutual

theorem tidy_statement : ∀ (statement : Statement) (depth : Int), 0 ≤ depth →
    (∀ x ∈ statement.names, isReserved x = false) → statement.Moveless →
      Code.Tidy inside (fun _ => False) (lowerStatement depth statement)
  | .input name, _, _, hnames, _ =>
    have hname : isReserved name = false := hnames name (by simp [Statement.names])
    .act rfl (fun _ _ => Iff.rfl) fun _ => .read hname
  | .output _, _, _, _, _ => .act rfl (fun _ _ => Iff.rfl) fun _ => .write
  | .assign name value, _, _, hnames, _ =>
    have hname : isReserved name = false := hnames name (by simp [Statement.names])
    .act rfl (fun _ _ => Iff.rfl) fun _ => .put_variable hname
  | .loop condition body, depth, hdepth, hnames, hmoveless =>
    have h := reserved_of_condition hnames
    .gateLoop (nested_lowerBlock (depth + 1) body) hdepth h.1
      (tidy_block body (depth + 1) (by omega) h.2 hmoveless)
  | .branch condition body, depth, hdepth, hnames, hmoveless =>
    have h := reserved_of_condition hnames
    .gate (nested_lowerBlock (depth + 1) body) hdepth Int.le_rfl h.1 id
      (tidy_block body (depth + 1) (by omega) h.2 hmoveless)
  | .branchElse condition body otherwise, depth, hdepth, hnames, hmoveless => by
    rw [Statement.names, List.append_assoc] at hnames
    have h := reserved_of_condition hnames
    have hbody := tidy_block body (depth + 1) (by omega)
      (fun x hx => h.2 x (List.mem_append_left _ hx)) hmoveless.1
    have hotherwise := tidy_block otherwise (depth + 1) (by omega)
      (fun x hx => h.2 x (List.mem_append_right _ hx)) hmoveless.2
    have hnested := nested_lowerBlock (depth + 1) body
    have hclear := nested_setCell (Flag.untaken depth).name 0
    exact .setCell_whenFlag (nested_gate condition (hnested.append hclear))
      (nested_lowerBlock (depth + 1) otherwise) id (Flag.name_ne_scratchName (.untaken depth))
      (.gate (hnested.append hclear) hdepth Int.le_rfl h.1 id
        (.append hnested hclear id hbody (.setCell (.inl rfl)))) hotherwise

/-- The code of a block without moves fills no internal cell that it finds empty. -/
theorem tidy_block : ∀ (block : Block) (depth : Int), 0 ≤ depth →
    (∀ x ∈ namesOf block, isReserved x = false) → Block.Moveless block →
      Code.Tidy inside (fun _ => False) (lowerBlock depth block)
  | [], _, _, _, _ => .nil
  | statement :: rest, depth, hdepth, hnames, hmoveless =>
    .append (nested_lowerStatement depth statement) (nested_lowerBlock depth rest) id
      (tidy_statement statement depth hdepth
        (fun x hx => hnames x (List.mem_append_left _ hx)) hmoveless.1)
      (tidy_block rest depth hdepth (fun x hx => hnames x (List.mem_append_right _ hx))
        hmoveless.2)

end

end TapeCompiler
