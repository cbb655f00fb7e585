import TapeCompiler.Proofs.Loops.Nest
/-!
# Well nested sequences

Code is written down as a sequence in which brackets mark the loops. A sequence is well nested when
its brackets pair up, each with a partner of the same label; then it is the text of exactly one
nest (`exists_nest`, `pieces_inj`), and it means what that nest means (`Executes`). The rules for
`Executes` let a proof follow a sequence piece by piece without ever naming its nest.
-/
namespace TapeCompiler

variable {ι κ σ : Type}

/-- One member of a written sequence. -/
inductive Piece (ι κ : Type) where
  | act (instr : ι)
  | opening (label : κ)
  | closing (label : κ)
  deriving DecidableEq, Repr

/-- The sequence that a nest is written as. -/
def Nest.pieces : Nest ι κ → List (Piece ι κ)
  | .done => []
  | .act instr rest => .act instr :: rest.pieces
  | .loop label body rest => .opening label :: body.pieces ++ .closing label :: rest.pieces

/-- Whether a sequence closes the given loops, the innermost first, and is otherwise well nested. -/
def Closes : List κ → List (Piece ι κ) → Prop
  | openings, [] => openings = []
  | openings, .act _ :: rest => Closes openings rest
  | openings, .opening label :: rest => Closes (label :: openings) rest
  | [], .closing _ :: _ => False
  | opening :: openings, .closing label :: rest => opening = label ∧ Closes openings rest

/-- Brackets come in pairs with equal labels, and pairs do not cross. -/
def WellNested (ps : List (Piece ι κ)) : Prop := Closes [] ps

instance Closes.decide [DecidableEq κ] :
    ∀ (openings : List κ) (ps : List (Piece ι κ)), Decidable (Closes openings ps)
  | openings, [] => inferInstanceAs (Decidable (openings = []))
  | openings, .act _ :: rest => Closes.decide openings rest
  | openings, .opening label :: rest => Closes.decide (label :: openings) rest
  | [], .closing _ :: _ => inferInstanceAs (Decidable False)
  | opening :: openings, .closing label :: rest =>
    have := Closes.decide openings rest
    inferInstanceAs (Decidable (opening = label ∧ Closes openings rest))

instance [DecidableEq κ] (ps : List (Piece ι κ)) : Decidable (WellNested ps) :=
  Closes.decide [] ps

theorem closes_pieces_append (code : Nest ι κ) (openings : List κ) (ps : List (Piece ι κ)) :
    Closes openings (code.pieces ++ ps) ↔ Closes openings ps := by
  induction code generalizing openings ps with
  | done => rfl
  | act instr rest ih => exact ih openings ps
  | loop label body rest ihb ih =>
    simp only [Nest.pieces, List.cons_append, List.append_assoc, Closes, ihb, ih, true_and]

theorem wellNested_pieces (code : Nest ι κ) : WellNested code.pieces := by
  have h := (closes_pieces_append code [] []).2 rfl
  rwa [List.append_nil] at h

/-! ## The nest of a sequence -/

/-- A sequence cut at the brackets that close the given loops: one nest before each of them, and
one behind the last. -/
def CutBy : List κ → List (Piece ι κ) → Prop
  | [], ps => ∃ code : Nest ι κ, code.pieces = ps
  | label :: openings, ps =>
    ∃ (code : Nest ι κ) (rest : List (Piece ι κ)),
      ps = code.pieces ++ .closing label :: rest ∧ CutBy openings rest

theorem CutBy.act {openings : List κ} {ps : List (Piece ι κ)} (instr : ι)
    (h : CutBy openings ps) : CutBy openings (.act instr :: ps) := by
  cases openings with
  | nil =>
    obtain ⟨code, rfl⟩ := h
    exact ⟨.act instr code, rfl⟩
  | cons label openings =>
    obtain ⟨code, rest, rfl, hrest⟩ := h
    exact ⟨.act instr code, rest, rfl, hrest⟩

theorem CutBy.loop {openings : List κ} {ps : List (Piece ι κ)} {label : κ}
    (h : CutBy (label :: openings) ps) : CutBy openings (.opening label :: ps) := by
  obtain ⟨body, ps, rfl, h⟩ := h
  cases openings with
  | nil =>
    obtain ⟨code, rfl⟩ := h
    exact ⟨.loop label body code, rfl⟩
  | cons outer openings =>
    obtain ⟨code, rest, rfl, hrest⟩ := h
    exact ⟨.loop label body code, rest, by simp [Nest.pieces], hrest⟩

theorem cutBy_of_closes {openings : List κ} {ps : List (Piece ι κ)} (h : Closes openings ps) :
    CutBy openings ps := by
  induction ps generalizing openings with
  | nil =>
    obtain rfl : openings = [] := h
    exact ⟨.done, rfl⟩
  | cons piece rest ih =>
    cases piece with
    | act instr => exact (ih h).act instr
    | opening label =>
      have hcut : CutBy (label :: openings) rest := ih h
      exact hcut.loop
    | closing label =>
      cases openings with
      | nil => exact absurd h id
      | cons opening openings =>
        obtain ⟨rfl, h⟩ := h
        exact ⟨.done, rest, rfl, ih h⟩

/-- Every well nested sequence is the text of a nest. -/
theorem WellNested.exists_nest {ps : List (Piece ι κ)} (h : WellNested ps) :
    ∃ code : Nest ι κ, code.pieces = ps := cutBy_of_closes h

/-- No nest goes on where a loop around it is closed, so a nest ends where its text ends. -/
theorem pieces_append_inj {first second : Nest ι κ} {ps qs : List (Piece ι κ)}
    (hp : ∀ piece ∈ ps.head?, ∃ label, piece = .closing label)
    (hq : ∀ piece ∈ qs.head?, ∃ label, piece = .closing label)
    (h : first.pieces ++ ps = second.pieces ++ qs) : first = second ∧ ps = qs := by
  induction first generalizing second ps qs with
  | done =>
    cases second with
    | done => exact ⟨rfl, h⟩
    | act | loop =>
      simp only [Nest.pieces, List.nil_append, List.cons_append] at h
      obtain ⟨_, he⟩ := hp _ (by rw [h]; rfl)
      exact absurd he (by simp)
  | act instr rest ih =>
    cases second with
    | act instr' rest' =>
      simp only [Nest.pieces, List.cons_append, List.cons.injEq, Piece.act.injEq] at h
      obtain ⟨rfl, rfl⟩ := ih hp hq h.2
      exact ⟨by rw [h.1], rfl⟩
    | loop => simp [Nest.pieces] at h
    | done =>
      simp only [Nest.pieces, List.nil_append, List.cons_append] at h
      obtain ⟨_, he⟩ := hq _ (by rw [← h]; rfl)
      exact absurd he (by simp)
  | loop label body rest ihb ih =>
    cases second with
    | act => simp [Nest.pieces] at h
    | done =>
      simp only [Nest.pieces, List.nil_append, List.cons_append] at h
      obtain ⟨_, he⟩ := hq _ (by rw [← h]; rfl)
      exact absurd he (by simp)
    | loop label' body' rest' =>
      simp only [Nest.pieces, List.cons_append, List.append_assoc, List.cons.injEq,
        Piece.opening.injEq] at h
      obtain ⟨rfl, h⟩ := h
      obtain ⟨rfl, hrest⟩ := ihb (by simp) (by simp) h
      obtain ⟨rfl, rfl⟩ := ih hp hq (List.cons.inj hrest).2
      exact ⟨rfl, rfl⟩

/-- A sequence is the text of one nest at most. -/
theorem pieces_inj {first second : Nest ι κ} (h : first.pieces = second.pieces) :
    first = second :=
  (@pieces_append_inj _ _ first second [] [] (by simp) (by simp) (by simpa using h)).1

theorem pieces_append (first second : Nest ι κ) :
    (first.append second).pieces = first.pieces ++ second.pieces := by
  induction first with
  | done => rfl
  | act instr rest ih => simp [Nest.append, Nest.pieces, ih]
  | loop label body rest _ ih => simp [Nest.append, Nest.pieces, ih]

theorem WellNested.nil : WellNested ([] : List (Piece ι κ)) := rfl

theorem WellNested.append {ps qs : List (Piece ι κ)} (hp : WellNested ps) (hq : WellNested qs) :
    WellNested (ps ++ qs) := by
  obtain ⟨first, rfl⟩ := hp.exists_nest
  exact (closes_pieces_append first [] qs).2 hq

theorem WellNested.loop {ps qs : List (Piece ι κ)} (label : κ) (hp : WellNested ps)
    (hq : WellNested qs) : WellNested (.opening label :: ps ++ .closing label :: qs) := by
  obtain ⟨body, rfl⟩ := hp.exists_nest
  exact (closes_pieces_append body [label] (.closing label :: qs)).2 ⟨rfl, hq⟩

/-- Changes the instruction or label of a piece. -/
def Piece.map {ι' κ' : Type} (f : ι → ι') (g : κ → κ') : Piece ι κ → Piece ι' κ'
  | act instr => act (f instr)
  | opening label => opening (g label)
  | closing label => closing (g label)

theorem pieces_map {ι' κ' : Type} (f : ι → ι') (g : κ → κ') (code : Nest ι κ) :
    (code.map f g).pieces = code.pieces.map (Piece.map f g) := by
  induction code with
  | done => rfl
  | act instr rest ih => simp [Nest.map, Nest.pieces, Piece.map, ih]
  | loop label body rest ihb ih => simp [Nest.map, Nest.pieces, Piece.map, ihb, ih]

theorem WellNested.map {ι' κ' : Type} (f : ι → ι') (g : κ → κ') {ps : List (Piece ι κ)}
    (h : WellNested ps) : WellNested (ps.map (Piece.map f g)) := by
  obtain ⟨code, rfl⟩ := h.exists_nest
  rw [← pieces_map]
  exact wellNested_pieces _

/-! ## What a sequence does -/

/-- A run of a written sequence is a run of its nest. -/
def Executes (M : Meaning ι κ σ) (ps : List (Piece ι κ)) (s t : σ) : Prop :=
  ∃ code : Nest ι κ, code.pieces = ps ∧ code.Runs M s t

variable {M : Meaning ι κ σ} {ps qs : List (Piece ι κ)} {s t : σ}

theorem executes_pieces (code : Nest ι κ) : Executes M code.pieces s t ↔ code.Runs M s t := by
  constructor
  · rintro ⟨code', h, hr⟩
    exact pieces_inj h ▸ hr
  · intro hr
    exact ⟨code, rfl, hr⟩

theorem executes_nil : Executes M [] s t ↔ t = s := executes_pieces .done

theorem executes_act {instr : ι} :
    Executes M (.act instr :: ps) s t ↔ ∃ m, M.act instr s m ∧ Executes M ps m t := by
  constructor
  · rintro ⟨code, h, hr⟩
    cases code with
    | act instr' rest =>
      obtain ⟨hi, rfl⟩ := List.cons.inj h
      obtain rfl := Piece.act.inj hi
      obtain ⟨m, hm, hr⟩ := hr
      exact ⟨m, hm, rest, rfl, hr⟩
    | done | loop => simp [Nest.pieces] at h
  · rintro ⟨m, hm, code, rfl, hr⟩
    exact ⟨.act instr code, rfl, m, hm, hr⟩

theorem executes_append (hp : WellNested ps) (hq : WellNested qs) :
    Executes M (ps ++ qs) s t ↔ ∃ m, Executes M ps s m ∧ Executes M qs m t := by
  obtain ⟨first, rfl⟩ := hp.exists_nest
  obtain ⟨second, rfl⟩ := hq.exists_nest
  rw [← pieces_append, executes_pieces, Nest.runs_append]
  simp only [executes_pieces]

theorem executes_loop {label : κ} (hp : WellNested ps) (hq : WellNested qs) :
    Executes M (.opening label :: ps ++ .closing label :: qs) s t ↔
      ∃ m, Repeat (M.test label) (Executes M ps) s m ∧ Executes M qs m t := by
  obtain ⟨body, rfl⟩ := hp.exists_nest
  obtain ⟨rest, rfl⟩ := hq.exists_nest
  have hbody : Executes M body.pieces = body.Runs M := by
    funext s t
    exact propext (executes_pieces body)
  rw [show Piece.opening label :: body.pieces ++ .closing label :: rest.pieces =
    (Nest.loop label body rest).pieces from rfl, executes_pieces, hbody]
  simp only [executes_pieces, Nest.Runs]

end TapeCompiler
