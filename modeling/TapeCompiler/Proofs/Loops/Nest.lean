/-!
# Nested loops

All languages of the compiler repeat a piece of code while something holds. This file gives them
one notion of structured code: a `Nest` is a sequence of plain instructions and loops, and a
`Meaning` says what the plain instructions do to a state and when a loop goes on. `Nest.Runs`
relates the states in which a run begins and ends; a run that goes on for ever relates nothing.
-/
namespace TapeCompiler

variable {ι κ σ τ : Type}

/-! ## Repetition -/

/-- `body` again and again as long as `test` holds before it. -/
inductive Repeat (test : σ → Prop) (body : σ → σ → Prop) : σ → σ → Prop where
  | done {s : σ} (stop : ¬test s) : Repeat test body s s
  | again {s m t : σ} (go : test s) (first : body s m) (rest : Repeat test body m t) :
      Repeat test body s t

/-- Some rounds of a loop, which need not be all. -/
inductive Rounds (test : σ → Prop) (body : σ → σ → Prop) : σ → σ → Prop where
  | none {s : σ} : Rounds test body s s
  | more {s m t : σ} (go : test s) (first : body s m) (rest : Rounds test body m t) :
      Rounds test body s t

namespace Repeat

variable {test : σ → Prop} {body : σ → σ → Prop} {s t : σ}

theorem iff_of_not (h : ¬test s) : Repeat test body s t ↔ t = s := by
  constructor
  · intro hr
    cases hr with
    | done => rfl
    | again go => exact absurd go h
  · rintro rfl
    exact .done h

theorem eq_of_not (h : Repeat test body s t) (hs : ¬test s) : t = s := (iff_of_not hs).1 h

theorem iff_of_test (h : test s) :
    Repeat test body s t ↔ ∃ m, body s m ∧ Repeat test body m t := by
  constructor
  · intro hr
    cases hr with
    | done stop => exact absurd h stop
    | again _ first rest => exact ⟨_, first, rest⟩
  · rintro ⟨m, first, rest⟩
    exact .again h first rest

/-- A loop ends only where its test fails. -/
theorem not_test (h : Repeat test body s t) : ¬test t := by
  induction h with
  | done stop => exact stop
  | again _ _ _ ih => exact ih

/-- A loop does not end where something holds that its body keeps and that keeps its test true. -/
theorem not_of_kept {P : σ → Prop} (htest : ∀ s, P s → test s)
    (hbody : ∀ s m, P s → body s m → P m) (hs : P s) : ¬Repeat test body s t := by
  intro h
  induction h with
  | done stop => exact stop (htest _ hs)
  | again _ first _ ih => exact ih (hbody _ _ hs first)

/-- A body that can be followed through a relation can be followed for any number of rounds. -/
theorem follow {test' : τ → Prop} {body' : τ → τ → Prop} {R : σ → τ → Prop}
    (htest : ∀ s s', R s s' → (test s ↔ test' s'))
    (hbody : ∀ s s' m, R s s' → test s → body s m → ∃ m', body' s' m' ∧ R m m')
    (h : Repeat test body s t) {s' : τ} (hs : R s s') :
    ∃ t', Repeat test' body' s' t' ∧ R t t' := by
  induction h generalizing s' with
  | done stop => exact ⟨s', .done (fun h' => stop ((htest _ _ hs).2 h')), hs⟩
  | again go first _ ih =>
    obtain ⟨m', first', hm⟩ := hbody _ _ _ hs go first
    obtain ⟨t', rest', ht⟩ := ih hm
    exact ⟨t', .again ((htest _ _ hs).1 go) first' rest', ht⟩

/-- A loop ends in one state when its body does. -/
theorem unique (hbody : ∀ s m n, body s m → body s n → m = n) {t' : σ}
    (h : Repeat test body s t) (h' : Repeat test body s t') : t = t' := by
  induction h with
  | done stop => exact ((iff_of_not stop).1 h').symm
  | again go first _ ih =>
    obtain ⟨n, first', rest'⟩ := (iff_of_test go).1 h'
    obtain rfl := hbody _ _ _ first first'
    exact ih rest'

/-- A loop may be watched through a change of states that reaches every state. -/
theorem conj {e : σ → τ} (e' : τ → σ) (hright : ∀ t, e (e' t) = t)
    {test : τ → Prop} {body : τ → τ → Prop} {t : τ} :
    Repeat test body (e s) t ↔
      ∃ m, Repeat (fun s => test (e s)) (fun s m => body (e s) (e m)) s m ∧ e m = t := by
  constructor
  · intro h
    refine follow (R := fun t s => e s = t) ?_ ?_ h rfl
    · rintro _ s rfl
      exact Iff.rfl
    · rintro _ s m rfl _ hb
      exact ⟨e' m, by rwa [hright], hright m⟩
  · rintro ⟨m, h, rfl⟩
    obtain ⟨_, h, rfl⟩ : ∃ t, Repeat test body (e s) t ∧ e m = t :=
      follow (R := fun s t => e s = t) (by rintro s _ rfl; exact Iff.rfl)
        (by rintro s _ m rfl _ hb; exact ⟨e m, hb, rfl⟩) h rfl
    exact h

end Repeat

/-! ## Structured code -/

/-- Plain instructions `ι` in sequence, and loops labelled by what they test. -/
inductive Nest (ι κ : Type) where
  | done
  | act (instr : ι) (rest : Nest ι κ)
  | loop (label : κ) (body rest : Nest ι κ)

/-- What the plain instructions do to a state, and in which states a loop goes on. -/
structure Meaning (ι κ σ : Type) where
  act : ι → σ → σ → Prop
  test : κ → σ → Prop

namespace Nest

/-- The states in which a run may begin and end. -/
def Runs (M : Meaning ι κ σ) : Nest ι κ → σ → σ → Prop
  | done, s, t => t = s
  | act instr rest, s, t => ∃ m, M.act instr s m ∧ rest.Runs M m t
  | loop label body rest, s, t => ∃ m, Repeat (M.test label) (body.Runs M) s m ∧ rest.Runs M m t

def append : Nest ι κ → Nest ι κ → Nest ι κ
  | done, other => other
  | act instr rest, other => act instr (rest.append other)
  | loop label body rest, other => loop label body (rest.append other)

theorem runs_append {M : Meaning ι κ σ} {first second : Nest ι κ} {s t : σ} :
    (first.append second).Runs M s t ↔ ∃ m, first.Runs M s m ∧ second.Runs M m t := by
  induction first generalizing s with
  | done => simp [append, Runs]
  | act instr rest ih =>
    simp only [append, Runs, ih]
    constructor
    · rintro ⟨m, h, n, h1, h2⟩; exact ⟨n, ⟨m, h, h1⟩, h2⟩
    · rintro ⟨n, ⟨m, h, h1⟩, h2⟩; exact ⟨m, h, n, h1, h2⟩
  | loop label body rest _ ih =>
    simp only [append, Runs, ih]
    constructor
    · rintro ⟨m, h, n, h1, h2⟩; exact ⟨n, ⟨m, h, h1⟩, h2⟩
    · rintro ⟨n, ⟨m, h, h1⟩, h2⟩; exact ⟨m, h, n, h1, h2⟩

/-- Changes every plain instruction and every label. -/
def map {ι' κ' : Type} (f : ι → ι') (g : κ → κ') : Nest ι κ → Nest ι' κ'
  | done => done
  | act instr rest => act (f instr) (rest.map f g)
  | loop label body rest => loop (g label) (body.map f g) (rest.map f g)

end Nest

/-- Instructions and labels mean what they are changed into. -/
def Meaning.pullback {ι' κ' : Type} (M : Meaning ι' κ' σ) (f : ι → ι') (g : κ → κ') :
    Meaning ι κ σ where
  act instr := M.act (f instr)
  test label := M.test (g label)

theorem Nest.runs_map {ι' κ' : Type} {M : Meaning ι' κ' σ} {f : ι → ι'} {g : κ → κ'}
    (code : Nest ι κ) : (code.map f g).Runs M = code.Runs (M.pullback f g) := by
  induction code with
  | done => rfl
  | act instr rest ih => funext s t; simp only [map, Runs, ih]; rfl
  | loop label body rest ihb ih => funext s t; simp only [map, Runs, ih, ihb]; rfl

end TapeCompiler
