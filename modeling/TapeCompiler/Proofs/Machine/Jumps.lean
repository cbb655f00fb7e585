import TapeCompiler.Proofs.Machine.Structured
/-!
# The jump table of structured code

The pairs of brackets that are found in the text of a nest are those of its loops
(`bracketPairs_ops`), and no position is in two of them, so the jump table leads from each bracket
of a loop to the other one. `Placed` collects what the machine needs to know of a nest at a
position of its code.
-/
namespace TapeCompiler

/-- The operations that a nest is written as. -/
def Nest.ops (code : Nest Command Unit) : List Op := code.pieces.map Piece.op

/-- The number of operations. -/
def Nest.size : Nest Command Unit → Nat
  | .done => 0
  | .act _ rest => rest.size + 1
  | .loop _ body rest => body.size + rest.size + 2

@[simp] theorem ops_act (c : Command) (rest : Nest Command Unit) :
    (Nest.act c rest).ops = c.op :: rest.ops := rfl

@[simp] theorem ops_loop (label : Unit) (body rest : Nest Command Unit) :
    (Nest.loop label body rest).ops = .openLoop :: (body.ops ++ .closeLoop :: rest.ops) := by
  simp [Nest.ops, Nest.pieces, Piece.op]

@[simp] theorem length_ops (code : Nest Command Unit) : code.ops.length = code.size := by
  induction code with
  | done => rfl
  | act c rest ih => simp [Nest.size, ih]
  | loop label body rest ihb ih => simp [Nest.size, ihb, ih]; omega

theorem map_piece_ops (code : Nest Command Unit) : code.ops.map Op.piece = code.pieces := by
  have h : Op.piece ∘ Piece.op = id := funext Piece.piece_op
  rw [Nest.ops, List.map_map, h, List.map_id]

theorem ops_of_pieces {code : Nest Command Unit} {ops : List Op}
    (h : code.pieces = ops.map Op.piece) : code.ops = ops := by
  have hid : Piece.op ∘ Op.piece = id := funext Op.op_piece
  rw [Nest.ops, h, List.map_map, hid, List.map_id]

/-! ## The pairs of a nest -/

/-- The positions of the brackets of every loop, for code that begins at `position`; the loop that
is closed last comes first. -/
def Nest.pairsFrom (position : Nat) : Nest Command Unit → List (Nat × Nat)
  | .done => []
  | .act _ rest => rest.pairsFrom (position + 1)
  | .loop _ body rest =>
    rest.pairsFrom (position + body.size + 2)
      ++ (position, position + body.size + 1) :: body.pairsFrom (position + 1)

theorem bracket?_op (c : Command) : c.op.bracket? = none := by
  cases c <;> rfl

theorem bracketPairsFrom_ops (code : Nest Command Unit) (position : Nat) (openings : List Nat)
    (pairs : List (Nat × Nat)) (rest : List (Option Bracket)) :
    bracketPairsFrom position openings pairs (code.ops.map Op.bracket? ++ rest) =
      bracketPairsFrom (position + code.size) openings (code.pairsFrom position ++ pairs) rest := by
  induction code generalizing position openings pairs rest with
  | done => rfl
  | act c more ih =>
    simp only [ops_act, List.map_cons, List.cons_append, bracket?_op, bracketPairsFrom, ih,
      Nest.size, Nest.pairsFrom]
    congr 1
    omega
  | loop label body more ihb ih =>
    simp only [ops_loop, List.map_cons, List.map_append, List.cons_append, List.append_assoc,
      Op.bracket?, bracketPairsFrom, ihb, ih, Nest.size, Nest.pairsFrom]
    have h1 : position + 1 + body.size = position + body.size + 1 := by omega
    have h2 : position + body.size + 1 + 1 + more.size = position + (body.size + more.size + 2) := by
      omega
    rw [h1, h2]

/-- The pairs found in the text of a nest are those of its loops. -/
theorem bracketPairs_ops (code : Nest Command Unit) :
    bracketPairs (code.ops.map Op.bracket?) = some (code.pairsFrom 0) := by
  have h := bracketPairsFrom_ops code 0 [] [] []
  simp only [List.append_nil] at h
  rw [bracketPairs, h]
  rfl

/-! ## No position is in two pairs -/

def positions (pairs : List (Nat × Nat)) : List Nat := pairs.flatMap fun pair => [pair.1, pair.2]

@[simp] theorem positions_append (first second : List (Nat × Nat)) :
    positions (first ++ second) = positions first ++ positions second := by
  simp [positions]

@[simp] theorem positions_cons (pair : Nat × Nat) (pairs : List (Nat × Nat)) :
    positions (pair :: pairs) = pair.1 :: pair.2 :: positions pairs := rfl

theorem mem_positions_pairsFrom {code : Nest Command Unit} {position p : Nat}
    (h : p ∈ positions (code.pairsFrom position)) : position ≤ p ∧ p < position + code.size := by
  induction code generalizing position with
  | done => simp [Nest.pairsFrom, positions] at h
  | act c rest ih =>
    have := ih h
    simp only [Nest.size]
    omega
  | loop label body rest ihb ih =>
    simp only [Nest.pairsFrom, positions_append, positions_cons, List.mem_append,
      List.mem_cons] at h
    simp only [Nest.size]
    rcases h with h | rfl | rfl | h
    · have := ih h; omega
    · omega
    · omega
    · have := ihb h; omega

theorem nodup_positions_pairsFrom (code : Nest Command Unit) (position : Nat) :
    (positions (code.pairsFrom position)).Nodup := by
  induction code generalizing position with
  | done => exact List.nodup_nil
  | act c rest ih => exact ih (position + 1)
  | loop label body rest ihb ih =>
    simp only [Nest.pairsFrom, positions_append, positions_cons]
    have hrest : ∀ p ∈ positions (rest.pairsFrom (position + body.size + 2)),
        position + body.size + 2 ≤ p := fun p hp => (mem_positions_pairsFrom hp).1
    have hbody : ∀ p ∈ positions (body.pairsFrom (position + 1)),
        position + 1 ≤ p ∧ p < position + 1 + body.size := fun p hp => mem_positions_pairsFrom hp
    refine List.nodup_append.2 ⟨ih _, List.nodup_cons.2 ⟨?_, List.nodup_cons.2 ⟨?_, ihb _⟩⟩, ?_⟩
    · intro h
      rcases List.mem_cons.1 h with h | h
      · omega
      · have := hbody _ h; omega
    · intro h
      have := hbody _ h
      omega
    · intro a ha b hb
      have := hrest a ha
      simp only [List.mem_cons] at hb
      rcases hb with rfl | rfl | hb
      · omega
      · omega
      · have := hbody b hb; omega

/-! ## The table -/

/-- Makes the two positions of a pair point at each other. -/
def link (partners : Array (Option Nat)) (pair : Nat × Nat) : Array (Option Nat) :=
  (partners.setIfInBounds pair.1 (some pair.2)).setIfInBounds pair.2 (some pair.1)

theorem size_link (partners : Array (Option Nat)) (pair : Nat × Nat) :
    (link partners pair).size = partners.size := by
  simp [link]

theorem link_untouched {partners : Array (Option Nat)} {pair : Nat × Nat} {p : Nat}
    (h1 : p ≠ pair.1) (h2 : p ≠ pair.2) : (link partners pair)[p]? = partners[p]? := by
  rw [link, Array.getElem?_setIfInBounds, Array.getElem?_setIfInBounds]
  rw [if_neg (Ne.symm h2), if_neg (Ne.symm h1)]

theorem foldl_link_untouched {pairs : List (Nat × Nat)} {partners : Array (Option Nat)} {p : Nat}
    (h : p ∉ positions pairs) : (pairs.foldl link partners)[p]? = partners[p]? := by
  induction pairs generalizing partners with
  | nil => rfl
  | cons pair rest ih =>
    simp only [positions_cons, List.mem_cons, not_or] at h
    rw [List.foldl_cons, ih h.2.2, link_untouched h.1 h.2.1]

theorem foldl_link {pairs : List (Nat × Nat)} {pair : Nat × Nat} (partners : Array (Option Nat))
    (hnodup : (positions pairs).Nodup) (hmem : pair ∈ pairs)
    (hlt : ∀ p ∈ positions pairs, p < partners.size) :
    (pairs.foldl link partners)[pair.1]? = some (some pair.2) ∧
      (pairs.foldl link partners)[pair.2]? = some (some pair.1) := by
  induction pairs generalizing partners with
  | nil => simp at hmem
  | cons first rest ih =>
    rw [positions_cons] at hnodup hlt
    obtain ⟨h1, h2, hnodup⟩ : _ ∧ _ ∧ _ :=
      ⟨(List.nodup_cons.1 hnodup).1, List.nodup_cons.1 (List.nodup_cons.1 hnodup).2⟩
    rw [List.foldl_cons]
    rcases List.mem_cons.1 hmem with rfl | hmem
    · rw [List.mem_cons, not_or] at h1
      rw [foldl_link_untouched h1.2, foldl_link_untouched h2]
      have hlt1 : pair.1 < partners.size := hlt _ (by simp)
      have hlt2 : pair.2 < partners.size := hlt _ (by simp)
      simp [link, Ne.symm h1.1, hlt1, hlt2]
    · exact ih _ hnodup hmem fun p hp => by
        rw [size_link]
        exact hlt p (List.mem_cons_of_mem _ (List.mem_cons_of_mem _ hp))

theorem partner?_ofPairs {pairs : List (Nat × Nat)} {length : Nat} {pair : Nat × Nat}
    (hnodup : (positions pairs).Nodup) (hmem : pair ∈ pairs)
    (hlt : ∀ p ∈ positions pairs, p < length) :
    (JumpTable.ofPairs length pairs).partner? pair.1 = some pair.2 ∧
      (JumpTable.ofPairs length pairs).partner? pair.2 = some pair.1 := by
  have h := foldl_link (.replicate length none) hnodup hmem (by simpa using hlt)
  constructor
  · exact (congrArg Option.join h.1).trans rfl
  · exact (congrArg Option.join h.2).trans rfl

/-! ## Code in its place -/

namespace Machine

/-- The operations of a nest stand in the program from a position on, and its jumps join the two
brackets of each loop. -/
def Placed (program : Program) : Nat → Nest Command Unit → Prop
  | _, .done => True
  | p, .act c rest => program.ops[p]? = some c.op ∧ Placed program (p + 1) rest
  | p, .loop _ body rest =>
    program.ops[p]? = some .openLoop ∧
      program.jumps.partner? p = some (p + body.size + 1) ∧
      Placed program (p + 1) body ∧
      program.ops[p + body.size + 1]? = some .closeLoop ∧
      program.jumps.partner? (p + body.size + 1) = some p ∧
      Placed program (p + body.size + 2) rest

theorem placed_of {program : Program} {code : Nest Command Unit} {p : Nat}
    (hops : ∀ i < code.size, program.ops[p + i]? = code.ops[i]?)
    (hjumps : ∀ pair ∈ code.pairsFrom p, program.jumps.partner? pair.1 = some pair.2 ∧
      program.jumps.partner? pair.2 = some pair.1) : Placed program p code := by
  induction code generalizing p with
  | done => trivial
  | act c rest ih =>
    refine ⟨hops 0 (by simp [Nest.size]), ih (fun i hi => ?_) hjumps⟩
    have h := hops (i + 1) (by simp only [Nest.size]; omega)
    rwa [ops_act, List.getElem?_cons_succ, ← Nat.add_assoc, Nat.add_right_comm] at h
  | loop label body rest ihb ih =>
    have hown := hjumps (p, p + body.size + 1) (by simp [Nest.pairsFrom])
    have hget : ∀ i < body.size + rest.size + 1,
        program.ops[p + (i + 1)]? = (body.ops ++ .closeLoop :: rest.ops)[i]? := fun i hi => by
      have h := hops (i + 1) (by simp only [Nest.size]; omega)
      rwa [ops_loop, List.getElem?_cons_succ] at h
    refine ⟨hops 0 (by simp [Nest.size]), hown.1, ihb (fun i hi => ?_) fun pair hp => ?_, ?_,
      hown.2, ih (fun i hi => ?_) fun pair hp => ?_⟩
    · have h := hget i (by omega)
      rwa [List.getElem?_append_left (by simpa using hi), Nat.add_comm i 1, ← Nat.add_assoc] at h
    · exact hjumps pair (by simp [Nest.pairsFrom, hp])
    · have h := hget body.size (by omega)
      rwa [List.getElem?_append_right (by simp), length_ops, Nat.sub_self,
        List.getElem?_cons_zero] at h
    · have h := hget (body.size + 1 + i) (by omega)
      rw [List.getElem?_append_right (by simp; omega), length_ops,
        show body.size + 1 + i - body.size = i + 1 by omega, List.getElem?_cons_succ] at h
      rw [← h]
      congr 1
      omega
    · exact hjumps pair (by simp [Nest.pairsFrom, hp])

/-- Where a nest has a bracket, the program has a jump. -/
theorem Placed.exists_partner {program : Program} {code : Nest Command Unit} {p i : Nat} {op : Op}
    (h : Placed program p code) (hop : code.ops[i]? = some op) (hbracket : op.bracket? ≠ none) :
    ∃ q, program.jumps.partner? (p + i) = some q := by
  induction code generalizing p i with
  | done => simp [Nest.ops, Nest.pieces] at hop
  | act c rest ih =>
    rw [ops_act] at hop
    cases i with
    | zero =>
      obtain rfl : c.op = op := by simpa using hop
      exact absurd (bracket?_op c) hbracket
    | succ i =>
      rw [List.getElem?_cons_succ] at hop
      rw [← Nat.add_assoc, Nat.add_right_comm]
      exact ih h.2 hop
  | loop label body rest ihb ih =>
    obtain ⟨_, hpartner, hbody, _, hback, hrest⟩ := h
    rw [ops_loop] at hop
    cases i with
    | zero => exact ⟨_, hpartner⟩
    | succ i =>
      rw [List.getElem?_cons_succ] at hop
      rcases Nat.lt_trichotomy i body.size with hi | rfl | hi
      · rw [List.getElem?_append_left (by simpa using hi)] at hop
        rw [← Nat.add_assoc, Nat.add_right_comm]
        exact ihb hbody hop
      · exact ⟨p, hback⟩
      · obtain ⟨k, rfl⟩ := Nat.exists_eq_add_of_lt hi
        rw [List.getElem?_append_right (by simp; omega), length_ops,
          show body.size + k + 1 - body.size = k + 1 by omega, List.getElem?_cons_succ] at hop
        rw [show p + (body.size + k + 1 + 1) = p + body.size + 2 + k by omega]
        exact ih hrest hop

/-- A nest is in its place in the program made from its text. -/
theorem exists_placed (code : Nest Command Unit) :
    ∃ program, Program.ofCode? code.ops = some program ∧ program.ops = code.ops.toArray ∧
      Placed program 0 code := by
  refine ⟨⟨code.ops.toArray, .ofPairs code.size (code.pairsFrom 0)⟩, ?_, rfl, placed_of ?_ ?_⟩
  · simp [Program.ofCode?, JumpTable.ofBrackets?, bracketPairs_ops]
  · intro i _
    simp
  · intro pair hp
    refine partner?_ofPairs (nodup_positions_pairsFrom code 0) hp fun p h => ?_
    have := (mem_positions_pairsFrom h).2
    omega

end Machine

end TapeCompiler
