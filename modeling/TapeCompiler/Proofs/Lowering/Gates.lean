import TapeCompiler.Proofs.Asm.RowMeaning
import TapeCompiler.Proofs.Lowering.FlagName
import TapeCompiler.Proofs.Source.Meaning
/-!
# Gates

Whatever its flags hold before, a gate lets its inner code run once if the condition holds, and
otherwise does nothing but set its flags (`guards_gate`). The inner code may end on another row and
may leave anything in the flags there: a gate is closed by clearing its flag on the row where the
inner code has ended, and no flag is looked at again that was not set before on the same row.
-/
namespace TapeCompiler

open TapeCompiler.Asm

/-! ## Brackets -/

variable {flag x : String} {code inner body : Code} {depth term : Int}

theorem whenFlag_eq (flag : String) (inner : Code) :
    whenFlag flag inner =
      .openLoop (.name flag) :: (inner ++ [setCell flag 0]) ++ [.closeLoop (.name flag)] := by
  simp [whenFlag]

theorem nested_whenFlag (flag : String) (h : Code.Nested inner) :
    Code.Nested (whenFlag flag inner) := by
  rw [whenFlag_eq]
  exact (h.append (nested_setCell flag 0)).loop

theorem nested_differenceInto (flag : String) (c : Comparison) :
    Code.Nested (differenceInto flag c) := rfl

theorem nested_gateComparison (c : Comparison) (h : Code.Nested inner) :
    Code.Nested (gateComparison depth term c inner) := by
  unfold gateComparison
  cases c.test with
  | notEqual => exact (nested_differenceInto _ c).append (nested_whenFlag _ h)
  | equal =>
    refine (Code.Nested.append ?_ (nested_whenFlag _ (nested_setCell _ 0))).append
      (nested_whenFlag _ h)
    exact Code.Nested.act rfl (nested_differenceInto _ c)

theorem nested_gate (condition : Condition) (h : Code.Nested inner) :
    Code.Nested (gate depth term condition inner) := by
  induction condition generalizing term with
  | nil => exact h
  | cons c rest ih => exact nested_gateComparison c ih

theorem nested_gateBranch (condition : Condition) (h : Code.Nested body) :
    ∀ otherwise : Option Code, (∀ code ∈ otherwise, Code.Nested code) →
      Code.Nested (gateBranch depth condition body otherwise)
  | none, _ => nested_gate condition h
  | some _, ho =>
    (Code.Nested.act rfl (nested_gate condition (h.append (nested_setCell _ 0)))).append
      (nested_whenFlag _ (ho _ rfl))

theorem nested_gateLoop (condition : Condition) (h : Code.Nested body) :
    Code.Nested (gateLoop depth condition body) := by
  have hround : Code.Nested (setCell (Flag.again depth).name 0
      :: gate depth 0 condition (body ++ [setCell (Flag.again depth).name 1])) :=
    Code.Nested.act rfl (nested_gate condition (h.append (nested_setCell _ 1)))
  exact Code.Nested.act rfl (hround.loop (x := (Flag.again depth).name))

/-! ## Running the inner code at most once -/

variable {inside : Int → Prop} {w : World} {t : Option World}

/-- With the flag set, the inner code runs once and the flag is cleared where it ends. -/
theorem codeOn_whenFlag_set (h : Code.Nested inner) (hw : inside w.row) (hflag : w.get flag ≠ 0) :
    CodeOn inside (whenFlag flag inner) (some w) t ↔
      ∃ m, CodeOn inside inner (some w) m ∧ t = m.map (World.put flag 0) := by
  rw [whenFlag_eq, codeOn_loop (h.append (nested_setCell flag 0)),
    Repeat.iff_of_test ⟨w, rfl, hflag⟩]
  simp only [codeOn_append_setCell h hw]
  constructor
  · rintro ⟨_, ⟨m, hm, rfl⟩, hr⟩
    refine ⟨m, hm, (Repeat.iff_of_not ?_).1 hr⟩
    rintro ⟨v, hv, hne⟩
    obtain ⟨k, -, rfl⟩ := Option.map_eq_some_iff.1 hv
    exact hne World.get_put_self
  · rintro ⟨m, hm, rfl⟩
    refine ⟨_, ⟨m, hm, rfl⟩, .done ?_⟩
    rintro ⟨v, hv, hne⟩
    obtain ⟨k, -, rfl⟩ := Option.map_eq_some_iff.1 hv
    exact hne World.get_put_self

theorem codeOn_whenFlag_clear (h : Code.Nested inner) (hflag : w.get flag = 0) :
    CodeOn inside (whenFlag flag inner) (some w) t ↔ t = some w := by
  rw [whenFlag_eq, codeOn_loop (h.append (nested_setCell flag 0)), Repeat.iff_of_not]
  rintro ⟨v, hv, hne⟩
  exact hne (Option.some.inj hv ▸ hflag)

/-! ## The difference of a comparison -/

/-- Moving a variable to the scratch cell and a flag, and back from the scratch cell, puts its byte
into the flag and leaves the variable as it was. -/
theorem copy_copy_put (hscratch : w.get scratchName = 0) (hflag : flag ≠ scratchName)
    (hx : x ≠ scratchName) (hxf : x ≠ flag) :
    ((w.put flag 0).copy x [scratchName, flag]).copy scratchName [x] = w.put flag (w.get x) := by
  refine World.ext_of rfl rfl rfl fun r y => ?_
  simp only [World.get] at hscratch
  by_cases hr : r = w.row
  · subst hr
    by_cases hy : y = flag
    · subst hy
      simp [World.copy, World.put, World.get, hflag, hxf, Ne.symm hxf]
    · by_cases hyx : y = x
      · subst hyx
        simp [World.copy, World.put, World.get, hflag, hxf, hx, Ne.symm hx, hscratch]
      · by_cases hys : y = scratchName
        · subst hys
          simp [World.copy, World.put, World.get, hy, hscratch]
        · simp [World.copy, World.put, World.get, hy, hyx, hys]
  · simp [World.copy, World.put, World.get, hr]

theorem codeOn_differenceInto {c : Comparison} (hw : inside w.row)
    (hscratch : w.get scratchName = 0) (hflag : flag ≠ scratchName) (hx : c.name ≠ scratchName)
    (hxf : c.name ≠ flag) :
    CodeOn inside (differenceInto flag c) (some w) t ↔
      t = some (w.put flag (w.get c.name - .ofInt c.value)) := by
  have hsub : (w.put flag (w.get c.name)).put flag
      ((w.put flag (w.get c.name)).get flag - .ofInt c.value) =
        w.put flag (w.get c.name - .ofInt c.value) := by
    refine World.ext_of rfl rfl rfl fun r y => ?_
    simp only [World.cells_put, World.get_put_self, World.row_put]
    split <;> rfl
  rw [differenceInto, codeOn_setCell hw, ← hsub, ← copy_copy_put hscratch hflag hx hxf]
  refine (codeOn_copy [scratchName, flag] ?_).trans ?_
  · exact hw
  refine (codeOn_copy [c.name] ?_).trans ?_
  · exact hw
  refine (codeOn_act rfl (fun _ => Iff.rfl) ?_).trans codeOn_nil
  exact hw

/-! ## Gates -/

/-- The flags that the gate of a condition uses. -/
def GateFlag (depth : Int) (x : String) : Prop :=
  ∃ term : Int, 0 ≤ term ∧
    (x = (Flag.difference depth term).name ∨ x = (Flag.equality depth term).name)

theorem GateFlag.isReserved (hdepth : 0 ≤ depth) (h : GateFlag depth x) : isReserved x = true := by
  obtain ⟨term, hterm, rfl | rfl⟩ := h
  · exact isReserved_name (.difference depth term) ⟨hdepth, hterm⟩
  · exact isReserved_name (.equality depth term) ⟨hdepth, hterm⟩

theorem not_gateFlag {other : Flag} (hd : ∀ term, other.kind ≠ (Flag.difference depth term).kind)
    (he : ∀ term, other.kind ≠ (Flag.equality depth term).kind) : ¬GateFlag depth other.name := by
  rintro ⟨term, -, h | h⟩
  · exact Flag.name_ne (hd term) h
  · exact Flag.name_ne (he term) h

theorem not_gateFlag_scratchName : ¬GateFlag depth scratchName := by
  rintro ⟨term, -, h | h⟩
  · exact Flag.name_ne_scratchName _ h.symm
  · exact Flag.name_ne_scratchName _ h.symm

/-- `code`, run in the world `w`, is `inner` run once if `holds`, and otherwise nothing, but for
flags that are set on the rows where `inner` begins and ends. -/
structure Guards (inside : Int → Prop) (depth : Int) (code inner : Code) (holds : Prop)
    (w : World) : Prop where
  pass : holds → ∃ (opened : World) (close : World → World),
    World.SameOff (GateFlag depth) w opened ∧ (∀ m, World.SameOff (GateFlag depth) m (close m)) ∧
      ∀ t, CodeOn inside code (some w) t ↔
        ∃ m, CodeOn inside inner (some opened) m ∧ t = m.map close
  skip : ¬holds → ∃ shut : World, World.SameOff (GateFlag depth) w shut ∧
    ∀ t, CodeOn inside code (some w) t ↔ t = some shut

/-- Code that ends in a piece run when a flag is set guards that piece, if the flag is set exactly
when it should be. -/
theorem guards_of_whenFlag {holds : Prop} {armed : World} (h : Code.Nested inner)
    (hflag : GateFlag depth flag) (hsame : World.SameOff (GateFlag depth) w armed)
    (hw : inside w.row) (hset : armed.get flag ≠ 0 ↔ holds)
    (hcode : ∀ t, CodeOn inside code (some w) t ↔
      CodeOn inside (whenFlag flag inner) (some armed) t) :
    Guards inside depth code inner holds w where
  pass hh := ⟨armed, World.put flag 0, hsame, fun _ => .put hflag, fun t =>
    (hcode t).trans (codeOn_whenFlag_set h (hsame.row ▸ hw) (hset.2 hh))⟩
  skip hh := ⟨armed, hsame, fun t =>
    (hcode t).trans (codeOn_whenFlag_clear h (Decidable.not_not.1 (mt hset.1 hh)))⟩

section

variable {c : Comparison} {d e : String}

theorem guards_notEqual (h : Code.Nested inner) (hw : inside w.row)
    (hscratch : w.get scratchName = 0) (hd : GateFlag depth d) (hds : d ≠ scratchName)
    (hx : c.name ≠ scratchName) (hxd : c.name ≠ d) :
    Guards inside depth (differenceInto d c ++ whenFlag d inner) inner
      (w.get c.name ≠ .ofInt c.value) w := by
  refine guards_of_whenFlag h hd (.put (b := w.get c.name - .ofInt c.value) hd) hw ?_ fun t => ?_
  · rw [World.get_put_self]
    grind
  · rw [codeOn_append (nested_differenceInto _ c) (nested_whenFlag _ h)]
    simp only [codeOn_differenceInto hw hscratch hds hx hxd, exists_eq_left]

/-- The flag of equality is set before the difference is taken, and what the difference guards
clears it. -/
theorem codeOn_equality (h : Code.Nested inner) (hw : inside w.row)
    (hscratch : w.get scratchName = 0) (hds : d ≠ scratchName) (hes : e ≠ scratchName)
    (hx : c.name ≠ scratchName) (hxd : c.name ≠ d) (hxe : c.name ≠ e) (t : Option World) :
    CodeOn inside (setCell e 1 :: differenceInto d c ++ whenFlag d [setCell e 0] ++ whenFlag e inner)
        (some w) t ↔
      ∃ m, CodeOn inside (whenFlag d [setCell e 0])
        (some ((w.put e 1).put d (w.get c.name - .ofInt c.value))) m ∧
        CodeOn inside (whenFlag e inner) m t := by
  have hwe : inside (w.put e 1).row := hw
  have hse : (w.put e 1).get scratchName = 0 := by rw [World.get_put_of_ne hes.symm, hscratch]
  have hclear : Code.Nested [setCell e 0] := nested_setCell e 0
  rw [List.append_assoc, List.cons_append, codeOn_setCell hw,
    codeOn_append (nested_differenceInto _ c)
      ((nested_whenFlag _ hclear).append (nested_whenFlag _ h))]
  simp only [codeOn_append (nested_whenFlag _ hclear) (nested_whenFlag _ h)]
  rw [show UInt8.ofInt 1 = 1 from rfl]
  simp only [codeOn_differenceInto hwe hse hds hx hxd, exists_eq_left, World.get_put_of_ne hxe]

theorem guards_equal (h : Code.Nested inner) (hw : inside w.row) (hscratch : w.get scratchName = 0)
    (hd : GateFlag depth d) (he : GateFlag depth e) (hde : d ≠ e) (hds : d ≠ scratchName)
    (hes : e ≠ scratchName) (hx : c.name ≠ scratchName) (hxd : c.name ≠ d) (hxe : c.name ≠ e) :
    Guards inside depth
      (setCell e 1 :: differenceInto d c ++ whenFlag d [setCell e 0] ++ whenFlag e inner) inner
      (w.get c.name = .ofInt c.value) w := by
  have hclear : Code.Nested [setCell e 0] := nested_setCell e 0
  have hfirst := codeOn_equality h hw hscratch hds hes hx hxd hxe
  have hwd : inside ((w.put e 1).put d (w.get c.name - .ofInt c.value)).row := hw
  have hsame : World.SameOff (GateFlag depth) w
      ((w.put e 1).put d (w.get c.name - .ofInt c.value)) := .trans (.put he) (.put hd)
  by_cases hc : w.get c.name = .ofInt c.value
  · refine guards_of_whenFlag h he hsame hw ?_ fun t => (hfirst t).trans ?_
    · rw [World.get_put_of_ne hde.symm, World.get_put_self]
      simp [hc]
    · have hzero : ((w.put e 1).put d (w.get c.name - .ofInt c.value)).get d = 0 := by
        rw [World.get_put_self]
        grind
      simp only [codeOn_whenFlag_clear hclear hzero, exists_eq_left]
  · refine guards_of_whenFlag h he ((hsame.trans (.put (b := 0) he)).trans (.put (b := 0) hd)) hw
      ?_ fun t => (hfirst t).trans ?_
    · rw [World.get_put_of_ne hde.symm, World.get_put_self]
      simp [hc]
    · have hset : ((w.put e 1).put d (w.get c.name - .ofInt c.value)).get d ≠ 0 := by
        rw [World.get_put_self]
        grind
      simp only [codeOn_whenFlag_set hclear hwd hset, codeOn_setCell hwd, codeOn_nil,
        exists_eq_left]
      exact Iff.rfl

end

theorem guards_gateComparison {c : Comparison} (h : Code.Nested inner) (hw : inside w.row)
    (hdepth : 0 ≤ depth) (hterm : 0 ≤ term) (hname : isReserved c.name = false)
    (hscratch : w.get scratchName = 0) :
    Guards inside depth (gateComparison depth term c inner) inner (c.Holds w) w := by
  have hd : GateFlag depth (Flag.difference depth term).name := ⟨term, hterm, .inl rfl⟩
  have he : GateFlag depth (Flag.equality depth term).name := ⟨term, hterm, .inr rfl⟩
  have hde : (Flag.difference depth term).name ≠ (Flag.equality depth term).name :=
    Flag.name_ne (by simp [Flag.kind])
  have hds := Flag.name_ne_scratchName (.difference depth term)
  have hes := Flag.name_ne_scratchName (.equality depth term)
  have hx := ne_of_isReserved hname isReserved_scratchName
  have hxd := ne_of_isReserved hname (hd.isReserved hdepth)
  have hxe := ne_of_isReserved hname (he.isReserved hdepth)
  unfold gateComparison Comparison.Holds
  cases c.test with
  | notEqual => exact guards_notEqual h hw hscratch hd hds hx hxd
  | equal => exact guards_equal h hw hscratch hd he hde hds hes hx hxd hxe

/-- A gate lets its inner code run exactly if the whole condition holds. -/
theorem guards_gate {condition : Condition} (h : Code.Nested inner) (hdepth : 0 ≤ depth)
    (hterm : 0 ≤ term) (hnames : ∀ c ∈ condition, isReserved c.name = false)
    (hw : inside w.row) (hscratch : w.get scratchName = 0) :
    Guards inside depth (gate depth term condition inner) inner (condition.Holds w) w := by
  induction condition generalizing term w with
  | nil =>
    constructor
    · intro _
      refine ⟨w, id, .refl, fun _ => .refl, fun t => ?_⟩
      simp [gate]
    · intro hn
      exact absurd (by simp [Condition.Holds]) hn
  | cons c rest ih =>
    have hnested : Code.Nested (gate depth (term + 1) rest inner) := nested_gate rest h
    have hc := guards_gateComparison hnested hw hdepth hterm (hnames c List.mem_cons_self) hscratch
    have hrest : ∀ c ∈ rest, isReserved c.name = false :=
      fun c hmem => hnames c (List.mem_cons_of_mem _ hmem)
    -- the flags of a comparison that holds do not bear on the comparisons behind it
    have hinner : ∀ v, World.SameOff (GateFlag depth) w v →
        Guards inside depth (gate depth (term + 1) rest inner) inner (Condition.Holds rest w) v := by
      intro v hv
      rw [← Condition.holds_congr hv fun c hmem hg =>
        Bool.false_ne_true ((hrest c hmem).symm.trans (hg.isReserved hdepth))]
      exact ih (by omega) hrest (hv.row ▸ hw) ((hv.get not_gateFlag_scratchName).trans hscratch)
    constructor
    · intro hh
      rw [Condition.holds_cons] at hh
      obtain ⟨opened, close, ho, hclose, hruns⟩ := hc.pass hh.1
      obtain ⟨opened', close', ho', hclose', hruns'⟩ := (hinner opened ho).pass hh.2
      refine ⟨opened', close ∘ close', ho.trans ho', fun m => (hclose' m).trans (hclose _),
        fun t => (hruns t).trans ?_⟩
      simp only [hruns']
      constructor
      · rintro ⟨_, ⟨m, hm, rfl⟩, rfl⟩
        exact ⟨m, hm, Option.map_map close close' m⟩
      · rintro ⟨m, hm, rfl⟩
        exact ⟨_, ⟨m, hm, rfl⟩, (Option.map_map close close' m).symm⟩
    · intro hn
      by_cases hcw : c.Holds w
      · obtain ⟨opened, close, ho, hclose, hruns⟩ := hc.pass hcw
        obtain ⟨shut, hs, hruns'⟩ := (hinner opened ho).skip fun hr =>
          hn (Condition.holds_cons.2 ⟨hcw, hr⟩)
        refine ⟨close shut, (ho.trans hs).trans (hclose shut), fun t => (hruns t).trans ?_⟩
        simp only [hruns', exists_eq_left]
        exact Iff.rfl
      · exact hc.skip hcw

end TapeCompiler
