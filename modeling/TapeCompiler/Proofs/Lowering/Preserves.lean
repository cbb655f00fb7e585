import TapeCompiler.Lowering.Generate
import TapeCompiler.Proofs.Lowering.Gates
/-!
# Lowering preserves meaning

The code of a block ends exactly where the block ends, whatever the flags hold on whatever row, as
long as the scratch cell is empty everywhere. What carries the proof is `Shows`: between statements
the world of the code is the world of the program apart from reserved names. Nothing is said of
flags, so nothing has to be said of the rows from which the program has walked away.
-/
namespace TapeCompiler

open TapeCompiler.Asm

/-! ## Worlds of code and of programs -/

/-- The world `w` of the code has the variables of the world `u` of the program, and its scratch
cells are empty. -/
structure World.Shows (w u : World) : Prop where
  same : World.SameOff (fun x => isReserved x = true) u w
  scratch : ∀ r, w.cells r scratchName = 0

namespace World.Shows

variable {u w v : World} {x : String} {b : UInt8} {depth : Int}

/-- Flags may change. -/
theorem put_flag (h : w.Shows u) {flag : Flag} (hflag : flag.Natural) :
    (w.put flag.name b).Shows u where
  same := h.same.trans (.put (isReserved_name flag hflag))
  scratch r := by
    rw [cells_put, if_neg fun he => Flag.name_ne_scratchName flag he.2.symm, h.scratch]

theorem gate (h : w.Shows u) (hdepth : 0 ≤ depth) (hv : World.SameOff (GateFlag depth) w v) :
    v.Shows u where
  same := h.same.trans (hv.mono fun _ hx => hx.isReserved hdepth)
  scratch r := (hv.cells r _ not_gateFlag_scratchName).trans (h.scratch r)

theorem put (h : w.Shows u) (hx : isReserved x = false) (b : UInt8) :
    (w.put x b).Shows (u.put x b) where
  same := h.same.put_both x b
  scratch r := by
    rw [cells_put, if_neg fun he => ne_of_isReserved hx isReserved_scratchName he.2.symm, h.scratch]

theorem move (h : w.Shows u) (d : Direction) : (w.move d).Shows (u.move d) := by
  refine ⟨h.same.move_both d, fun r => ?_⟩
  rw [← h.scratch r]
  cases d <;> rfl

theorem read (h : w.Shows u) (hx : isReserved x = false) : (w.read x).Shows (u.read x) :=
  ⟨h.same.read_both x, (h.put hx (w.input.headD 0)).scratch⟩

theorem write (h : w.Shows u) (hx : isReserved x = false) : (w.write x).Shows (u.write x) :=
  ⟨h.same.write_both (by simp [hx]), h.scratch⟩

theorem holds_iff (h : w.Shows u) {condition : Condition}
    (hnames : ∀ c ∈ condition, isReserved c.name = false) :
    condition.Holds w ↔ condition.Holds u :=
  Condition.holds_congr h.same fun c hc => by simp [hnames c hc]

end World.Shows

/-! ## Code that follows runs -/

/-- Code started in `w` ends exactly as the runs to `Q` end, in worlds in which `P` holds besides.
No run of it leaves the rows in `inside`. -/
structure Follows (inside : Int → Prop) (code : Code) (w : World) (Q : World → Prop)
    (P : World → Prop) : Prop where
  sound : ∀ t, CodeOn inside code (some w) t → ∃ u v, t = some v ∧ Q u ∧ v.Shows u ∧ P v
  complete : ∀ u, Q u → ∃ v, CodeOn inside code (some w) (some v) ∧ v.Shows u ∧ P v

namespace Follows

variable {inside : Int → Prop} {code first second inner : Code} {u w v : World}
  {Q Q' : World → Prop} {P P' : World → Prop} {depth : Int} {condition : Condition}

/-- Code that ends in one world only. -/
theorem of_eq (hcode : ∀ t, CodeOn inside code (some w) t ↔ t = some v) (hv : v.Shows u)
    (hP : P v) : Follows inside code w (· = u) P where
  sound t ht := ⟨u, v, (hcode t).1 ht, rfl, hv, hP⟩
  complete _ hu := ⟨v, (hcode _).2 rfl, hu ▸ hv, hP⟩

theorem congr (h : Follows inside code w Q P) (hcode : ∀ t, CodeOn inside first (some v) t ↔
    CodeOn inside code (some w) t) (hQ : ∀ u, Q' u ↔ Q u) (hP : ∀ v, P v → P' v) :
    Follows inside first v Q' P' where
  sound t ht := by
    obtain ⟨u, v, ht, hu, hv, hp⟩ := h.sound t ((hcode t).1 ht)
    exact ⟨u, v, ht, (hQ u).2 hu, hv, hP v hp⟩
  complete u hu := by
    obtain ⟨v, hc, hv, hp⟩ := h.complete u ((hQ u).1 hu)
    exact ⟨v, (hcode _).2 hc, hv, hP v hp⟩

theorem append {R : World → World → Prop} (hf : Code.Nested first) (hs : Code.Nested second)
    (h : Follows inside first w Q P)
    (hsecond : ∀ u v, Q u → v.Shows u → P v → Follows inside second v (R u) P') :
    Follows inside (first ++ second) w (fun v => ∃ u, Q u ∧ R u v) P' where
  sound t ht := by
    obtain ⟨m, hm, ht⟩ := (codeOn_append hf hs).1 ht
    obtain ⟨u, v, rfl, hu, hv, hp⟩ := h.sound m hm
    obtain ⟨u', v', ht', hu', hv'⟩ := (hsecond u v hu hv hp).sound t ht
    exact ⟨u', v', ht', ⟨u, hu, hu'⟩, hv'⟩
  complete u' := by
    rintro ⟨u, hu, hu'⟩
    obtain ⟨v, hc, hv, hp⟩ := h.complete u hu
    obtain ⟨v', hc', hv'⟩ := (hsecond u v hu hv hp).complete u' hu'
    exact ⟨v', (codeOn_append hf hs).2 ⟨some v, hc, hc'⟩, hv'⟩

/-- A change of a flag at the end. -/
theorem map {close : World → World} (h : Follows inside inner v Q P)
    (hcode : ∀ t, CodeOn inside code (some w) t ↔
      ∃ m, CodeOn inside inner (some v) m ∧ t = m.map close)
    (hclose : ∀ u m, m.Shows u → (close m).Shows u) (hP : ∀ m, P m → P' (close m)) :
    Follows inside code w Q P' where
  sound t ht := by
    obtain ⟨m, hm, rfl⟩ := (hcode t).1 ht
    obtain ⟨u, k, rfl, hu, hk, hp⟩ := h.sound m hm
    exact ⟨u, close k, rfl, hu, hclose u k hk, hP k hp⟩
  complete u hu := by
    obtain ⟨k, hc, hk, hp⟩ := h.complete u hu
    exact ⟨close k, (hcode _).2 ⟨some k, hc, rfl⟩, hclose u k hk, hP k hp⟩

theorem append_setCell {flag : Flag} {n : Int} (hflag : flag.Natural) (hcode : Code.Nested code)
    (hw : inside w.row) (h : Follows inside code w Q P) :
    Follows inside (code ++ [setCell flag.name n]) w Q (fun v => v.get flag.name = .ofInt n) :=
  h.map (fun _ => codeOn_append_setCell hcode hw) (fun _ _ hm => hm.put_flag hflag)
    fun _ _ => World.get_put_self

/-- A gate whose condition holds does what its inner code does. -/
theorem gate (hinner : Code.Nested inner) (hdepth : 0 ≤ depth)
    (hnames : ∀ c ∈ condition, isReserved c.name = false) (hw : inside w.row) (hshows : w.Shows u)
    (hholds : condition.Holds u)
    (hP : ∀ m v, World.SameOff (GateFlag depth) m v → P m → P v)
    (h : ∀ v, v.Shows u → inside v.row → Follows inside inner v Q P) :
    Follows inside (TapeCompiler.gate depth 0 condition inner) w Q P := by
  have hguards := guards_gate hinner hdepth Int.le_rfl hnames hw (hshows.scratch _)
  obtain ⟨opened, close, ho, hclose, hruns⟩ := hguards.pass ((hshows.holds_iff hnames).2 hholds)
  exact (h opened (hshows.gate hdepth ho) (ho.row ▸ hw)).map hruns
    (fun u m hm => hm.gate hdepth (hclose m)) fun m hm => hP m _ (hclose m) hm

/-- A gate whose condition does not hold only changes its flags. -/
theorem gate_skip (hinner : Code.Nested inner) (hdepth : 0 ≤ depth)
    (hnames : ∀ c ∈ condition, isReserved c.name = false) (hw : inside w.row) (hshows : w.Shows u)
    (hholds : ¬condition.Holds u) :
    Follows inside (TapeCompiler.gate depth 0 condition inner) w (· = u)
      (fun v => World.SameOff (GateFlag depth) w v) := by
  have hguards := guards_gate hinner hdepth Int.le_rfl hnames hw (hshows.scratch _)
  obtain ⟨shut, hs, hruns⟩ := hguards.skip fun hh => hholds ((hshows.holds_iff hnames).1 hh)
  exact of_eq hruns (hshows.gate hdepth hs) hs

/-- A loop on a flag repeats a round of the program, if its code does such a round when the test of
the program holds, clears the flag when it does not, and has nothing to do outside `P`. -/
theorem loop {round : Code} {T P : World → Prop} {B : World → World → Prop} {x : String}
    (hround : Code.Nested round)
    (hgo : ∀ u w, P u → w.Shows u → T u →
      Follows inside round w (B u) fun v => v.get x ≠ 0)
    (hstop : ∀ u w, P u → w.Shows u → ¬T u → Follows inside round w (· = u) fun v => v.get x = 0)
    (hnext : ∀ u v, P u → T u → B u v → P v) (hu : P u) (hw : w.Shows u) (hx : w.get x ≠ 0) :
    Follows inside (.openLoop (.name x) :: round ++ [.closeLoop (.name x)]) w (Repeat T B u)
      fun _ => True where
  sound t ht := by
    have hrep := (codeOn_loop hround).1 ht
    clear ht
    generalize hs : some w = s at hrep
    induction hrep generalizing u w with
    | done stop => exact absurd ⟨w, hs.symm, hx⟩ stop
    | again _ first rest ih =>
      subst hs
      by_cases hT : T u
      · obtain ⟨m, v, rfl, hm, hv, hx⟩ := (hgo u w hu hw hT).sound _ first
        obtain ⟨n, k, hk, hn, hshows⟩ := ih (hnext u m hu hT hm) hv hx rfl
        exact ⟨n, k, hk, .again hT hm hn, hshows⟩
      · obtain ⟨_, v, rfl, he, hv, hx⟩ := (hstop u w hu hw hT).sound _ first
        have hend : ¬∃ w, some v = some w ∧ w.get x ≠ 0 := by
          rintro ⟨_, he, hne⟩
          exact hne (Option.some.inj he ▸ hx)
        exact ⟨u, v, rest.eq_of_not hend, .done hT, he ▸ hv, trivial⟩
  complete n hn := by
    refine (exists_congr fun v => and_congr_left fun _ => codeOn_loop hround).2 ?_
    induction hn generalizing w with
    | done stop =>
      obtain ⟨v, hv, hshows, hx'⟩ := (hstop _ w hu hw stop).complete _ rfl
      refine ⟨v, .again ⟨w, rfl, hx⟩ hv (.done ?_), hshows, trivial⟩
      rintro ⟨_, he, hne⟩
      exact hne (Option.some.inj he ▸ hx')
    | again go first _ ih =>
      obtain ⟨v, hv, hshows, hx'⟩ := (hgo _ w hu hw go).complete _ first
      obtain ⟨k, hk, hend⟩ := ih (hnext _ _ hu go first) hshows hx'
      exact ⟨k, .again ⟨w, rfl, hx⟩ hv hk, hend⟩

end Follows

/-! ## Statements -/

mutual

theorem nested_lowerStatement :
    ∀ (depth : Int) (statement : Statement), Code.Nested (lowerStatement depth statement)
  | _, .input _ | _, .output _ | _, .assign _ _ | _, .move .right | _, .move .left => rfl
  | depth, .loop condition body => nested_gateLoop condition (nested_lowerBlock (depth + 1) body)
  | depth, .branch condition body =>
    nested_gateBranch condition (nested_lowerBlock (depth + 1) body) none (by simp)
  | depth, .branchElse condition body otherwise =>
    nested_gateBranch condition (nested_lowerBlock (depth + 1) body) (some _)
      (by simp [nested_lowerBlock (depth + 1) otherwise])

/-- The loops of lowered code are well nested. -/
theorem nested_lowerBlock : ∀ (depth : Int) (block : Block), Code.Nested (lowerBlock depth block)
  | _, [] => rfl
  | depth, statement :: rest =>
    (nested_lowerStatement depth statement).append (nested_lowerBlock depth rest)

end

variable {inside : Int → Prop} {u w : World} {depth : Int} {condition : Condition}
  {body otherwise : Block}

/-- A block as its code must follow it, from every world that shows the one where it starts. -/
def Lowers (inside : Int → Prop) (depth : Int) (block : Block) : Prop :=
  ∀ u w, w.Shows u → (∀ r, Block.Visits block u r → inside r) →
    Follows inside (lowerBlock depth block) w (Block.Runs block u) fun _ => True

theorem follows_act {instr : Instr Ref} {v u' : World} (hact : instr.piece = .act instr)
    (hinstr : ∀ m, instr.ActsOnRow w m ↔ m = v) (hin : inside v.row) (hv : v.Shows u') :
    Follows inside [instr] w (· = u') fun _ => True :=
  .of_eq (fun _ => (codeOn_act hact hinstr hin).trans codeOn_nil) hv trivial

theorem follows_branch (hdepth : 0 ≤ depth)
    (hnames : ∀ c ∈ condition, isReserved c.name = false) (hbody : Lowers inside (depth + 1) body)
    (hshows : w.Shows u) (hvisits : ∀ r, (Statement.branch condition body).Visits u r → inside r) :
    Follows inside (lowerStatement depth (.branch condition body)) w
      ((Statement.branch condition body).Runs u) fun _ => True := by
  have hw : inside w.row := hvisits _ (.inl hshows.same.row)
  have hnested := nested_lowerBlock (depth + 1) body
  by_cases hc : condition.Holds u
  · refine (Follows.gate hnested hdepth hnames hw hshows hc (fun _ _ _ _ => trivial)
      fun v hv _ => hbody u v hv fun r hr => hvisits r (.inr ⟨hc, hr⟩)).congr (fun _ => Iff.rfl)
        (fun v => ?_) fun _ _ => trivial
    simp [Statement.Runs, hc]
  · refine (Follows.gate_skip hnested hdepth hnames hw hshows hc).congr (fun _ => Iff.rfl)
      (fun v => ?_) fun _ _ => trivial
    simp [Statement.Runs, hc]

theorem follows_branchElse (hdepth : 0 ≤ depth)
    (hnames : ∀ c ∈ condition, isReserved c.name = false)
    (hbody : Lowers inside (depth + 1) body) (hotherwise : Lowers inside (depth + 1) otherwise)
    (hshows : w.Shows u)
    (hvisits : ∀ r, (Statement.branchElse condition body otherwise).Visits u r → inside r) :
    Follows inside (lowerStatement depth (.branchElse condition body otherwise)) w
      ((Statement.branchElse condition body otherwise).Runs u) fun _ => True := by
  have hw : inside w.row :=
    hvisits _ (hshows.same.row ▸ (Statement.branchElse condition body otherwise).visits_row u)
  have hu : Flag.Natural (.untaken depth) := hdepth
  have hunflag : ¬GateFlag depth (Flag.untaken depth).name :=
    not_gateFlag (by simp [Flag.kind]) (by simp [Flag.kind])
  have hb := nested_lowerBlock (depth + 1) body
  have hbody' := hb.append (nested_setCell (Flag.untaken depth).name 0)
  have ho := nested_lowerBlock (depth + 1) otherwise
  have hgate : Code.Nested (gate depth 0 condition
      (lowerBlock (depth + 1) body ++ [setCell (Flag.untaken depth).name 0])) :=
    nested_gate condition hbody'
  -- the flag of the second part is set first
  have hcode : ∀ t, CodeOn inside (lowerStatement depth (.branchElse condition body otherwise))
        (some w) t ↔ CodeOn inside (gate depth 0 condition (lowerBlock (depth + 1) body
          ++ [setCell (Flag.untaken depth).name 0])
        ++ whenFlag (Flag.untaken depth).name (lowerBlock (depth + 1) otherwise))
      (some (w.put (Flag.untaken depth).name 1)) t := fun t => codeOn_setCell hw
  have hshows' : (w.put (Flag.untaken depth).name 1).Shows u := hshows.put_flag hu
  have hw' : inside (w.put (Flag.untaken depth).name 1).row := hw
  by_cases hc : condition.Holds u
  · have hfirst : Follows inside (gate depth 0 condition (lowerBlock (depth + 1) body
          ++ [setCell (Flag.untaken depth).name 0])) (w.put (Flag.untaken depth).name 1)
        (Block.Runs body u) fun v => v.get (Flag.untaken depth).name = .ofInt 0 :=
      .gate hbody' hdepth hnames hw' hshows' hc (fun m v hm hp => (hm.get hunflag).trans hp)
        fun v hv hin => .append_setCell hu hb hin
          (hbody u v hv fun r hr => hvisits r (.inl ⟨hc, hr⟩))
    refine (hfirst.append (R := fun u v => v = u) hgate (nested_whenFlag _ ho)
      fun u' v hu' hv hp => ?_).congr hcode (fun v => ?_) fun _ hp => hp
    · exact .of_eq (fun t => codeOn_whenFlag_clear ho hp) hv trivial
    · simp [Statement.Runs, hc]
  · have hfirst := Follows.gate_skip hbody' hdepth hnames hw' hshows' hc
    refine (hfirst.append (R := Block.Runs otherwise) hgate (nested_whenFlag _ ho)
      fun u' v hu' hv hp => ?_).congr hcode (fun v => ?_) fun _ hp => hp
    · subst hu'
      have hin : inside v.row := hp.row ▸ hw
      have hset : v.get (Flag.untaken depth).name ≠ 0 := by
        rw [hp.get hunflag, World.get_put_self]
        decide
      exact (hotherwise _ v hv fun r hr => hvisits r (.inr ⟨hc, hr⟩)).map
        (fun t => codeOn_whenFlag_set ho hin hset) (fun _ _ hm => hm.put_flag hu)
        fun _ _ => trivial
    · simp [Statement.Runs, hc]

theorem follows_loop (hdepth : 0 ≤ depth) (hnames : ∀ c ∈ condition, isReserved c.name = false)
    (hbody : Lowers inside (depth + 1) body) (hshows : w.Shows u)
    (hvisits : ∀ r, (Statement.loop condition body).Visits u r → inside r) :
    Follows inside (lowerStatement depth (.loop condition body)) w
      ((Statement.loop condition body).Runs u) fun _ => True := by
  have hw : inside w.row := hvisits _ ⟨u, .none, .inl hshows.same.row⟩
  have ha : Flag.Natural (.again depth) := hdepth
  have hunflag : ¬GateFlag depth (Flag.again depth).name :=
    not_gateFlag (by simp [Flag.kind]) (by simp [Flag.kind])
  have hb := nested_lowerBlock (depth + 1) body
  have hb' := hb.append (nested_setCell (Flag.again depth).name 1)
  have hround : Code.Nested (setCell (Flag.again depth).name 0 :: gate depth 0 condition
      (lowerBlock (depth + 1) body ++ [setCell (Flag.again depth).name 1])) :=
    .act rfl (nested_gate condition hb')
  suffices hloop : Follows inside (.openLoop (.name (Flag.again depth).name)
      :: (setCell (Flag.again depth).name 0 :: gate depth 0 condition
        (lowerBlock (depth + 1) body ++ [setCell (Flag.again depth).name 1]))
      ++ [.closeLoop (.name (Flag.again depth).name)]) (w.put (Flag.again depth).name 1)
      (Repeat condition.Holds (Block.Runs body) u) fun _ => True from
    hloop.congr (fun _ => codeOn_setCell hw) (fun _ => Iff.rfl) fun _ hp => hp
  refine .loop (P := fun u => ∀ r, (Statement.loop condition body).Visits u r → inside r) hround
    (fun u w hu hw hc => ?_) (fun u w hu hw hc => ?_) ?_ hvisits (hshows.put_flag ha) (by simp)
  · have hin : inside w.row := hu _ ⟨u, .none, .inl hw.same.row⟩
    have hgate : Follows inside (gate depth 0 condition (lowerBlock (depth + 1) body
          ++ [setCell (Flag.again depth).name 1])) (w.put (Flag.again depth).name 0)
        (Block.Runs body u) fun v => v.get (Flag.again depth).name = .ofInt 1 :=
      .gate hb' hdepth hnames hin (hw.put_flag ha) hc (fun m v hm hp => (hm.get hunflag).trans hp)
        fun v hv hin => .append_setCell ha hb hin
          (hbody u v hv fun r hr => hu r ⟨u, .none, .inr ⟨hc, hr⟩⟩)
    exact hgate.congr (fun _ => codeOn_setCell hin) (fun _ => Iff.rfl) fun v hv => by simp [hv]
  · have hin : inside w.row := hu _ ⟨u, .none, .inl hw.same.row⟩
    have hgate := Follows.gate_skip hb' hdepth hnames (w := w.put (Flag.again depth).name 0) hin
      (hw.put_flag ha) hc
    refine hgate.congr (fun _ => codeOn_setCell hin) (fun _ => Iff.rfl) fun v hv => ?_
    rw [hv.get hunflag, World.get_put_self]
  · -- a round leads to a world from which the loop comes on no other rows
    rintro u m hu hc hm r ⟨n, hn, hr⟩
    exact hu r ⟨n, .more hc hm hn, hr⟩

/-! ## Blocks -/

theorem reserved_of_condition {rest : List String}
    (h : ∀ x ∈ condition.names ++ rest, isReserved x = false) :
    (∀ c ∈ condition, isReserved c.name = false) ∧ ∀ x ∈ rest, isReserved x = false :=
  ⟨fun _ hc => h _ (List.mem_append_left _ (List.mem_map_of_mem hc)),
    fun x hx => h x (List.mem_append_right _ hx)⟩

mutual

theorem follows_statement : ∀ (statement : Statement) (depth : Int), 0 ≤ depth →
    (∀ x ∈ statement.names, isReserved x = false) → ∀ u w, w.Shows u →
      (∀ r, statement.Visits u r → inside r) →
        Follows inside (lowerStatement depth statement) w (statement.Runs u) fun _ => True
  | .input name, depth, _, hnames, u, w, hshows, hvisits => by
    have hx : isReserved name = false := hnames name (by simp [Statement.names])
    exact follows_act rfl (fun _ => Iff.rfl) (hvisits _ hshows.same.row) (hshows.read hx)
  | .output name, depth, _, hnames, u, w, hshows, hvisits => by
    have hx : isReserved name = false := hnames name (by simp [Statement.names])
    exact follows_act rfl (fun _ => Iff.rfl) (hvisits _ hshows.same.row) (hshows.write hx)
  | .assign name value, depth, _, hnames, u, w, hshows, hvisits => by
    have hx : isReserved name = false := hnames name (by simp [Statement.names])
    exact follows_act rfl (fun _ => Iff.rfl) (hvisits _ hshows.same.row)
      (hshows.put hx (.ofInt value))
  | .move .right, depth, _, _, u, w, hshows, hvisits =>
    have hmove := hshows.move .right
    follows_act rfl (fun _ => and_iff_right rfl) (hvisits _ (.inr hmove.same.row)) hmove
  | .move .left, depth, _, _, u, w, hshows, hvisits =>
    have hmove := hshows.move .left
    follows_act rfl (fun _ => and_iff_right rfl) (hvisits _ (.inr hmove.same.row)) hmove
  | .loop condition body, depth, hdepth, hnames, u, w, hshows, hvisits =>
    have h := reserved_of_condition hnames
    follows_loop hdepth h.1 (lowers_block body (depth + 1) (by omega) h.2) hshows hvisits
  | .branch condition body, depth, hdepth, hnames, u, w, hshows, hvisits =>
    have h := reserved_of_condition hnames
    follows_branch hdepth h.1 (lowers_block body (depth + 1) (by omega) h.2) hshows hvisits
  | .branchElse condition body otherwise, depth, hdepth, hnames, u, w, hshows, hvisits => by
    rw [Statement.names, List.append_assoc] at hnames
    have h := reserved_of_condition hnames
    have hbody : Lowers inside (depth + 1) body :=
      lowers_block body (depth + 1) (by omega) fun x hx => h.2 x (List.mem_append_left _ hx)
    have hotherwise : Lowers inside (depth + 1) otherwise :=
      lowers_block otherwise (depth + 1) (by omega) fun x hx => h.2 x (List.mem_append_right _ hx)
    exact follows_branchElse hdepth h.1 hbody hotherwise hshows hvisits

/-- The code of a block without reserved names follows its runs. -/
theorem lowers_block : ∀ (block : Block) (depth : Int), 0 ≤ depth →
    (∀ x ∈ namesOf block, isReserved x = false) → Lowers inside depth block
  | [], _, _, _, _, _, hshows, _ => .of_eq (fun _ => codeOn_nil) hshows trivial
  | statement :: rest, depth, hdepth, hnames, u, w, hshows, hvisits => by
    have hfirst := follows_statement statement depth hdepth
      (fun x hx => hnames x (List.mem_append_left _ hx)) u w hshows fun r hr => hvisits r (.inl hr)
    refine hfirst.append (nested_lowerStatement depth statement) (nested_lowerBlock depth rest) ?_
    intro m v hm hv _
    refine lowers_block rest depth hdepth (fun x hx => hnames x (List.mem_append_right _ hx)) m v hv ?_
    intro r hr
    exact hvisits r (.inr ⟨m, hm, hr⟩)

end

theorem reservedName?_eq_none {block : Block} :
    reservedName? block = none ↔ ∀ x ∈ namesOf block, isReserved x = false := by
  simp [reservedName?, List.find?_eq_none]

/-- **Lowering preserves meaning from any stale state.** Started on any row of a world in which the
scratch cells are empty and the flags hold anything, the code of a block without reserved names ends
exactly where the block ends: on the same row, with the same output, the same input left and the
same variables on every row, and with the scratch cells empty again. -/
theorem lowerBlock_preserves {block : Block} (hnames : reservedName? block = none)
    (hdepth : 0 ≤ depth) (hscratch : ∀ r, w.cells r scratchName = 0) :
    (∀ u, Block.Runs block w u →
      ∃ v, Executes rowMeaning ((lowerBlock depth block).map Instr.piece) w v ∧ v.Shows u) ∧
    ∀ v, Executes rowMeaning ((lowerBlock depth block).map Instr.piece) w v →
      ∃ u, Block.Runs block w u ∧ v.Shows u := by
  have hlowers : Lowers (fun _ => True) depth block :=
    lowers_block block depth hdepth (reservedName?_eq_none.1 hnames)
  have h := hlowers w w ⟨.refl, hscratch⟩ fun _ _ => trivial
  constructor
  · intro u hu
    obtain ⟨v, hv, hshows, -⟩ := h.complete u hu
    obtain ⟨_, he, hv⟩ := (executes_confined fun _ => trivial).1 hv
    exact ⟨v, Option.some.inj he ▸ hv, hshows⟩
  · intro v hv
    obtain ⟨u, _, he, hu, hshows, -⟩ :=
      h.sound (some v) ((executes_confined fun _ => trivial).2 ⟨v, rfl, hv⟩)
    exact ⟨u, hu, Option.some.inj he ▸ hshows⟩

/-- The first part of a branch is taken and ends on another row, where all flags are set. -/
theorem lowerBlock_preserves_branch :
    let block : Block := [.branchElse [⟨"x", .equal, 0⟩] [.assign "x" 1, .move .right] [.output "x"]]
    let w : World := ⟨0, fun _ x => if x = scratchName ∨ x = "x" then 0 else 7, [], #[]⟩
    reservedName? block = none ∧ (0 : Int) ≤ 0 ∧ (∀ r, w.cells r scratchName = 0) ∧
      ∃ v, Executes rowMeaning ((lowerBlock 0 block).map Instr.piece) w v ∧
        v.row = 1 ∧ v.cells 0 "x" = 1 ∧ v.output = #[] := by
  intro block w
  have hnames : reservedName? block = none := by decide
  have hscratch : ∀ r, w.cells r scratchName = 0 := fun _ => by simp [w]
  have hholds : Condition.Holds [⟨"x", .equal, 0⟩] w := List.forall_mem_singleton.2 rfl
  have hruns : Block.Runs block w ((w.put "x" 1).move .right) :=
    ⟨_, .inl ⟨hholds, _, rfl, _, rfl, rfl⟩, rfl⟩
  obtain ⟨v, hv, hshows⟩ := (lowerBlock_preserves hnames Int.le_rfl hscratch).1 _ hruns
  refine ⟨hnames, Int.le_rfl, hscratch, v, hv, hshows.same.row, ?_, hshows.same.output⟩
  rw [hshows.same.cells 0 "x" (by decide)]
  rfl

end TapeCompiler
