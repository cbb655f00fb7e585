import TapeCompiler.Proofs.Loops.WellNested
/-!
# Confined runs

To say that a run keeps to some of the states, and to notice when it does not, the same code is run
on optional states: as soon as an instruction leads outside, the state is lost, and a lost state
stays lost while the rest of the code goes by. So a confined run ends in a state exactly if the
plain run ends there without ever having been outside.
-/
namespace TapeCompiler

variable {ι κ σ : Type}

/-- The same meaning, in which states outside are lost. -/
def Meaning.confined (M : Meaning ι κ σ) (inside : σ → Prop) : Meaning ι κ (Option σ) where
  act instr
    | none, t => t = none
    | some s, t => ∃ m, M.act instr s m ∧ (inside m ∧ t = some m ∨ ¬inside m ∧ t = none)
  test label
    | none => False
    | some s => M.test label s

variable {M : Meaning ι κ σ} {inside : σ → Prop} {ps : List (Piece ι κ)} {s t : σ}

namespace Nest

theorem runs_none {code : Nest ι κ} {t : Option σ} :
    code.Runs (M.confined inside) none t ↔ t = none := by
  induction code generalizing t with
  | done => exact Iff.rfl
  | act instr rest ih =>
    constructor
    · rintro ⟨_, rfl, hr⟩
      exact ih.1 hr
    · intro h
      exact ⟨none, rfl, ih.2 h⟩
  | loop label body rest _ ih =>
    have hloop : ∀ m, Repeat ((M.confined inside).test label) (body.Runs (M.confined inside)) none m
        ↔ m = none := fun _ => Repeat.iff_of_not id
    simp only [Runs, hloop, exists_eq_left, ih]

/-- A confined run that starts inside ends inside. -/
theorem inside_of_runs {code : Nest ι κ} {s t : Option σ} (hs : ∀ m, s = some m → inside m)
    (h : code.Runs (M.confined inside) s t) : ∀ m, t = some m → inside m := by
  induction code generalizing s t with
  | done => obtain rfl : t = s := h; exact hs
  | act instr rest ih =>
    obtain ⟨m, hm, hr⟩ := h
    refine ih ?_ hr
    rintro n rfl
    cases s with
    | none => simp [Meaning.confined] at hm
    | some s =>
      obtain ⟨k, -, ⟨hin, he⟩ | ⟨-, he⟩⟩ := hm
      · exact Option.some.inj he ▸ hin
      · simp at he
  | loop label body rest ihb ih =>
    obtain ⟨m, hm, hr⟩ := h
    refine ih ?_ hr
    clear hr
    induction hm with
    | done => exact hs
    | again _ first _ ihr => exact ihr (ihb hs first)

/-- Where every state is inside nothing is lost. -/
theorem runs_confined {code : Nest ι κ} (hinside : ∀ m, inside m) {t : Option σ} :
    code.Runs (M.confined inside) (some s) t ↔ ∃ m, t = some m ∧ code.Runs M s m := by
  induction code generalizing s t with
  | done => simp [Runs]
  | act instr rest ih =>
    constructor
    · rintro ⟨_, ⟨m, hm, ⟨-, rfl⟩ | ⟨hout, -⟩⟩, hr⟩
      · obtain ⟨n, rfl, hn⟩ := ih.1 hr
        exact ⟨n, rfl, m, hm, hn⟩
      · exact absurd (hinside m) hout
    · rintro ⟨n, rfl, m, hm, hn⟩
      exact ⟨some m, ⟨m, hm, .inl ⟨hinside m, rfl⟩⟩, ih.2 ⟨n, rfl, hn⟩⟩
  | loop label body rest ihb ih =>
    constructor
    · rintro ⟨m, hm, hr⟩
      obtain ⟨k, hk, rfl⟩ : ∃ k, Repeat (M.test label) (body.Runs M) s k ∧ m = some k := by
        refine hm.follow (R := fun s k => s = some k) (by rintro _ _ rfl; exact Iff.rfl) ?_ rfl
        rintro _ s k rfl - hb
        obtain ⟨m, rfl, hm⟩ := ihb.1 hb
        exact ⟨m, hm, rfl⟩
      obtain ⟨n, rfl, hn⟩ := ih.1 hr
      exact ⟨n, rfl, k, hk, hn⟩
    · rintro ⟨n, rfl, k, hk, hn⟩
      obtain ⟨_, hm, rfl⟩ : ∃ m, Repeat ((M.confined inside).test label)
          (body.Runs (M.confined inside)) (some s) m ∧ m = some k := by
        refine hk.follow (R := fun s k => k = some s) (by rintro _ _ rfl; exact Iff.rfl) ?_ rfl
        rintro s _ k rfl - hb
        exact ⟨some k, ihb.2 ⟨k, rfl, hb⟩, rfl⟩
      exact ⟨some k, hm, ih.2 ⟨n, rfl, hn⟩⟩

end Nest

/-! ## The same for sequences -/

theorem executes_none (h : WellNested ps) {t : Option σ} :
    Executes (M.confined inside) ps none t ↔ t = none := by
  obtain ⟨code, rfl⟩ := h.exists_nest
  rw [executes_pieces, Nest.runs_none]

theorem inside_of_executes (inside : σ → Prop) (hs : inside s)
    (h : Executes (M.confined inside) ps (some s) (some t)) : inside t := by
  obtain ⟨code, -, hr⟩ := h
  exact Nest.inside_of_runs (fun _ hm => Option.some.inj hm ▸ hs) hr t rfl

theorem executes_confined (hinside : ∀ m, inside m) {t : Option σ} :
    Executes (M.confined inside) ps (some s) t ↔ ∃ m, t = some m ∧ Executes M ps s m := by
  constructor
  · rintro ⟨code, hp, hr⟩
    obtain ⟨m, rfl, hm⟩ := (Nest.runs_confined hinside).1 hr
    exact ⟨m, rfl, code, hp, hm⟩
  · rintro ⟨m, rfl, code, hp, hm⟩
    exact ⟨code, hp, (Nest.runs_confined hinside).2 ⟨m, rfl, hm⟩⟩

/-! ## Following a confined run on other states

Two meanings of the same code that agree inside: where a confined run ends, the other one ends, and
where the other one ends, the confined run has ended alike or has been lost. -/

/-- A condition on plain instructions and one on labels. -/
def Piece.Meets (P : ι → Prop) (L : κ → Prop) : Piece ι κ → Prop
  | act instr => P instr
  | opening label | closing label => L label

theorem Nest.meets_loop {P : ι → Prop} {L : κ → Prop} {label : κ} {body rest : Nest ι κ}
    (h : ∀ p ∈ (Nest.loop label body rest).pieces, p.Meets P L) :
    L label ∧ (∀ p ∈ body.pieces, p.Meets P L) ∧ ∀ p ∈ rest.pieces, p.Meets P L :=
  ⟨h (.opening label) (by simp [Nest.pieces]), fun p hp => h p (by simp [Nest.pieces, hp]),
    fun p hp => h p (by simp [Nest.pieces, hp])⟩

/-- `N` does on the states that `R` relates what `M` does inside. -/
structure Meaning.Agrees {τ : Type} (M : Meaning ι κ σ) (N : Meaning ι κ τ) (inside : σ → Prop)
    (R : σ → τ → Prop) (P : ι → Prop) (L : κ → Prop) : Prop where
  sound : ∀ {instr s s' t'}, P instr → R s s' → inside s → N.act instr s' t' →
    ∃ t, M.act instr s t ∧ R t t'
  complete : ∀ {instr s s' t}, P instr → R s s' → inside s → M.act instr s t →
    ∃ t', N.act instr s' t' ∧ R t t'
  test : ∀ {label s s'}, L label → R s s' → inside s → (M.test label s ↔ N.test label s')

namespace Meaning.Agrees

variable {τ : Type} {N : Meaning ι κ τ} {R : σ → τ → Prop} {P : ι → Prop} {L : κ → Prop}
  {code : Nest ι κ} {s' t' : τ}

theorem runs_sound (h : M.Agrees N inside R P L) (hcode : ∀ p ∈ code.pieces, p.Meets P L)
    (hR : R s s') (hs : inside s) (hrun : code.Runs N s' t') :
    ∃ t, code.Runs (M.confined inside) (some s) t ∧ ∀ m, t = some m → R m t' := by
  induction code generalizing s s' t' with
  | done => exact ⟨some s, rfl, fun m hm => Option.some.inj hm ▸ hrun ▸ hR⟩
  | act instr rest ih =>
    simp only [Nest.pieces, List.mem_cons, forall_eq_or_imp] at hcode
    obtain ⟨m', hm', hrest⟩ := hrun
    obtain ⟨m, hm, hR⟩ := h.sound hcode.1 hR hs hm'
    by_cases hin : inside m
    · obtain ⟨t, ht, hend⟩ := ih hcode.2 hR hin hrest
      exact ⟨t, ⟨some m, ⟨m, hm, .inl ⟨hin, rfl⟩⟩, ht⟩, hend⟩
    · exact ⟨none, ⟨none, ⟨m, hm, .inr ⟨hin, rfl⟩⟩, Nest.runs_none.2 rfl⟩, by simp⟩
  | loop label body rest ihb ih =>
    obtain ⟨hlabel, hbody, hafter⟩ := Nest.meets_loop hcode
    obtain ⟨m', hloop, hrest⟩ := hrun
    -- the rounds are followed one by one until the state is lost
    have hrounds : ∃ m, Repeat ((M.confined inside).test label) (body.Runs (M.confined inside))
        (some s) m ∧ ∀ k, m = some k → R k m' ∧ inside k := by
      clear hrest
      induction hloop generalizing s with
      | done stop =>
        exact ⟨some s, .done (mt (h.test hlabel hR hs).1 stop), fun k hk =>
          Option.some.inj hk ▸ ⟨hR, hs⟩⟩
      | again go first _ ihr =>
        obtain ⟨m, hm, hend⟩ := ihb hbody hR hs first
        have hgo := (h.test hlabel hR hs).2 go
        cases m with
        | none => exact ⟨none, .again hgo hm (.done id), by simp⟩
        | some m =>
          have hin := Nest.inside_of_runs (fun _ he => Option.some.inj he ▸ hs) hm m rfl
          obtain ⟨n, hn, hend⟩ := ihr (hend m rfl) hin
          exact ⟨n, .again hgo hm hn, hend⟩
    obtain ⟨m, hm, hend⟩ := hrounds
    cases m with
    | none => exact ⟨none, ⟨none, hm, Nest.runs_none.2 rfl⟩, by simp⟩
    | some m =>
      obtain ⟨t, ht, hend'⟩ := ih hafter (hend m rfl).1 (hend m rfl).2 hrest
      exact ⟨t, ⟨some m, hm, ht⟩, hend'⟩

theorem runs_complete (h : M.Agrees N inside R P L) (hcode : ∀ p ∈ code.pieces, p.Meets P L)
    (hR : R s s') (hs : inside s) (hrun : code.Runs (M.confined inside) (some s) (some t)) :
    ∃ t', code.Runs N s' t' ∧ R t t' := by
  induction code generalizing s s' t with
  | done => exact ⟨s', rfl, Option.some.inj hrun ▸ hR⟩
  | act instr rest ih =>
    simp only [Nest.pieces, List.mem_cons, forall_eq_or_imp] at hcode
    obtain ⟨_, ⟨m, hm, ⟨hin, rfl⟩ | ⟨-, rfl⟩⟩, hrest⟩ := hrun
    · obtain ⟨m', hm', hR⟩ := h.complete hcode.1 hR hs hm
      obtain ⟨t', ht', hend⟩ := ih hcode.2 hR hin hrest
      exact ⟨t', ⟨m', hm', ht'⟩, hend⟩
    · simp [Nest.runs_none] at hrest
  | loop label body rest ihb ih =>
    obtain ⟨hlabel, hbody, hafter⟩ := Nest.meets_loop hcode
    obtain ⟨m, hloop, hrest⟩ := hrun
    cases m with
    | none => simp [Nest.runs_none] at hrest
    | some m =>
      have hin : inside m := by
        have hloop : (Nest.loop label body .done).Runs (M.confined inside) (some s) (some m) :=
          ⟨some m, hloop, rfl⟩
        exact Nest.inside_of_runs (fun _ he => Option.some.inj he ▸ hs) hloop m rfl
      have hrounds : ∃ m', Repeat (N.test label) (body.Runs N) s' m' ∧ R m m' := by
        clear hrest
        generalize hx : some s = x at hloop
        generalize hy : some m = y at hloop
        induction hloop generalizing s s' with
        | done stop =>
          subst hx
          obtain rfl := Option.some.inj hy
          exact ⟨s', .done (mt (h.test hlabel hR hs).2 stop), hR⟩
        | @again _ k _ go first rest ihr =>
          subst hx hy
          cases k with
          | none => exact absurd (rest.eq_of_not id) (by simp)
          | some k =>
            have hin := Nest.inside_of_runs (fun _ he => Option.some.inj he ▸ hs) first k rfl
            obtain ⟨k', hk', hR'⟩ := ihb hbody hR hs first
            obtain ⟨m', hm', hend⟩ := ihr hR' hin rfl rfl
            exact ⟨m', .again ((h.test hlabel hR hs).1 go) hk' hm', hend⟩
      obtain ⟨m', hm', hR'⟩ := hrounds
      obtain ⟨t', ht', hend⟩ := ih hafter hR' hin hrest
      exact ⟨t', ⟨m', hm', ht'⟩, hend⟩

end Meaning.Agrees

end TapeCompiler
