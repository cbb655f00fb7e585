import TapeCompiler.Proofs.Machine.Balance
import TapeCompiler.Proofs.Machine.Jumps
/-!
# Matching brackets

The pass over a text finds a table exactly if its brackets balance (`isSome_bracketPairsFrom`). As a
balanced sequence of brackets is that of a nest, whatever stands between the brackets, the table
joins the two ends of each loop of that nest, and the text between them is balanced again
(`jumpTable_pairs`).
-/
namespace TapeCompiler

/-! ## When there is a table -/

/-- The pass fails where a bracket closes nothing, and at the end if a bracket is left open. -/
theorem isSome_bracketPairsFrom (position : Nat) (openings : List Nat) (pairs : List (Nat × Nat))
    (brackets : List (Option Bracket)) :
    (bracketPairsFrom position openings pairs brackets).isSome ↔
      BalancedFrom openings.length brackets := by
  induction brackets generalizing position openings pairs with
  | nil =>
    rw [balancedFrom_nil, bracketPairsFrom, List.length_eq_zero_iff]
    cases openings <;> simp
  | cons bracket rest ih =>
    cases bracket with
    | none => rw [balancedFrom_none, bracketPairsFrom, ih]
    | some bracket =>
      cases bracket with
      | opening => rw [balancedFrom_opening, bracketPairsFrom, ih, List.length_cons]
      | closing =>
        rw [balancedFrom_closing]
        cases openings with
        | nil => simp [bracketPairsFrom]
        | cons opening others => simp [bracketPairsFrom, ih]

theorem isSome_ofBrackets? (brackets : List (Option Bracket)) :
    (JumpTable.ofBrackets? brackets).isSome ↔ Balanced brackets := by
  rw [JumpTable.ofBrackets?, Option.isSome_map, bracketPairs, isSome_bracketPairsFrom]
  rfl

/-! ## The nest of a sequence of brackets -/

/-- An operation with a given bracket. Where there is none, any plain operation will do. -/
def Op.ofBracket : Option Bracket → Op
  | none => .increment
  | some .opening => .openLoop
  | some .closing => .closeLoop

@[simp] theorem Op.bracket?_ofBracket (bracket : Option Bracket) :
    (Op.ofBracket bracket).bracket? = bracket := by
  rcases bracket with _ | _ | _ <;> rfl

/-- A balanced sequence has the brackets of a nest. -/
theorem Balanced.exists_nest {brackets : List (Option Bracket)} (h : Balanced brackets) :
    ∃ code : Nest Command Unit, code.ops.map Op.bracket? = brackets := by
  have hops : (brackets.map Op.ofBracket).map Op.bracket? = brackets := by
    rw [List.map_map, show Op.bracket? ∘ Op.ofBracket = id from funext Op.bracket?_ofBracket,
      List.map_id]
  rw [← hops, ← wellNested_iff_balanced] at h
  obtain ⟨code, hcode⟩ := h.exists_nest
  exact ⟨code, by rw [ops_of_pieces hcode, hops]⟩

theorem balanced_ops (code : Nest Command Unit) : Balanced (code.ops.map Op.bracket?) := by
  rw [← wellNested_iff_balanced, map_piece_ops]
  exact wellNested_pieces code

theorem ofBrackets?_ops (code : Nest Command Unit) :
    JumpTable.ofBrackets? (code.ops.map Op.bracket?) =
      some (.ofPairs code.size (code.pairsFrom 0)) := by
  rw [JumpTable.ofBrackets?, bracketPairs_ops, List.length_map, length_ops]
  rfl

/-! ## What a pair encloses -/

/-- A pair of positions is that of the two brackets of a loop in a nest that begins at `position`. -/
def Nest.Joins (code : Nest Command Unit) (position : Nat) (pair : Nat × Nat) : Prop :=
  ∃ (before after : List Op) (body : Nest Command Unit),
    code.ops = before ++ .openLoop :: (body.ops ++ .closeLoop :: after) ∧
      pair = (position + before.length, position + before.length + body.size + 1)

namespace Nest.Joins

variable {code body rest : Nest Command Unit} {position : Nat} {pair : Nat × Nat}

theorem act (h : rest.Joins (position + 1) pair) (c : Command) :
    (Nest.act c rest).Joins position pair := by
  obtain ⟨before, after, body, hops, rfl⟩ := h
  exact ⟨c.op :: before, after, body, by rw [ops_act, hops, List.cons_append],
    by simp only [List.length_cons, Prod.mk.injEq]; omega⟩

theorem own (position : Nat) (body rest : Nest Command Unit) :
    (Nest.loop () body rest).Joins position (position, position + body.size + 1) :=
  ⟨[], rest.ops, body, ops_loop () body rest, rfl⟩

theorem inner (h : body.Joins (position + 1) pair) (rest : Nest Command Unit) :
    (Nest.loop () body rest).Joins position pair := by
  obtain ⟨before, after, inner, hops, rfl⟩ := h
  exact ⟨.openLoop :: before, after ++ .closeLoop :: rest.ops, inner, by simp [hops],
    by simp only [List.length_cons, Prod.mk.injEq]; omega⟩

theorem after (h : rest.Joins (position + body.size + 2) pair) :
    (Nest.loop () body rest).Joins position pair := by
  obtain ⟨before, after, inner, hops, rfl⟩ := h
  exact ⟨.openLoop :: body.ops ++ .closeLoop :: before, after, inner, by simp [hops],
    by simp only [List.length_append, List.length_cons, length_ops, Prod.mk.injEq]; omega⟩

end Nest.Joins

theorem joins_of_mem_pairsFrom {code : Nest Command Unit} {position : Nat} {pair : Nat × Nat}
    (h : pair ∈ code.pairsFrom position) : code.Joins position pair := by
  induction code generalizing position with
  | done => exact absurd h List.not_mem_nil
  | act c rest ih => exact (ih h).act c
  | loop label body rest ihb ih =>
    rcases List.mem_append.1 h with h | h
    · exact (ih h).after
    · rcases List.mem_cons.1 h with rfl | h
      · exact .own position body rest
      · exact (ihb h).inner rest

/-- A pair that begins between the two positions of another one ends there too. -/
theorem lt_of_mem_pairsFrom {code : Nest Command Unit} {position p q r s : Nat}
    (hpair : (p, q) ∈ code.pairsFrom position) (hother : (r, s) ∈ code.pairsFrom position)
    (hpr : p < r) (hrq : r < q) : s < q := by
  have hbounds {code : Nest Command Unit} {position p q : Nat}
      (h : (p, q) ∈ code.pairsFrom position) :
      (position ≤ p ∧ p < position + code.size) ∧ position ≤ q ∧ q < position + code.size :=
    ⟨mem_positions_pairsFrom (List.mem_flatMap.2 ⟨_, h, List.mem_cons_self⟩),
      mem_positions_pairsFrom (List.mem_flatMap.2 ⟨_, h, List.mem_cons_of_mem _ List.mem_cons_self⟩)⟩
  induction code generalizing position with
  | done => exact absurd hpair List.not_mem_nil
  | act c rest ih => exact ih hpair hother
  | loop label body rest ihb ih =>
    simp only [Nest.pairsFrom, List.mem_append, List.mem_cons, Prod.mk.injEq] at hpair hother
    rcases hpair with hpair | ⟨rfl, rfl⟩ | hpair
    · rcases hother with hother | ⟨rfl, rfl⟩ | hother
      · exact ih hpair hother
      · have := hbounds hpair; omega
      · have := hbounds hpair
        have := hbounds hother
        omega
    · rcases hother with hother | ⟨rfl, rfl⟩ | hother
      · have := hbounds hother; omega
      · omega
      · have := hbounds hother; omega
    · rcases hother with hother | ⟨rfl, rfl⟩ | hother
      · have := hbounds hpair
        have := hbounds hother
        omega
      · have := hbounds hpair; omega
      · exact ihb hpair hother

/-! ## The table of a nest -/

theorem mem_positions {pairs : List (Nat × Nat)} {p : Nat} :
    p ∈ positions pairs ↔ ∃ q, (p, q) ∈ pairs ∨ (q, p) ∈ pairs := by
  simp only [positions, List.mem_flatMap, List.mem_cons, List.not_mem_nil, or_false, Prod.exists]
  constructor
  · rintro ⟨first, second, h, rfl | rfl⟩
    · exact ⟨second, .inl h⟩
    · exact ⟨first, .inr h⟩
  · rintro ⟨q, h | h⟩
    · exact ⟨p, q, h, .inl rfl⟩
    · exact ⟨q, p, h, .inr rfl⟩

theorem partner?_ofPairs_of_not_mem {pairs : List (Nat × Nat)} {p : Nat} (length : Nat)
    (h : p ∉ positions pairs) : (JumpTable.ofPairs length pairs).partner? p = none := by
  have huntouched : (pairs.foldl link (.replicate length none))[p]? =
      (Array.replicate length none)[p]? := foldl_link_untouched h
  refine (congrArg Option.join huntouched).trans ?_
  rw [Array.getElem?_replicate]
  split <;> rfl

/-- The table holds every pair in both directions, and nothing else. -/
theorem partner?_ofPairs_iff {pairs : List (Nat × Nat)} {length p q : Nat}
    (hnodup : (positions pairs).Nodup) (hlt : ∀ p ∈ positions pairs, p < length) :
    (JumpTable.ofPairs length pairs).partner? p = some q ↔ (p, q) ∈ pairs ∨ (q, p) ∈ pairs := by
  have hpartner (pair : Nat × Nat) (hmem : pair ∈ pairs) := partner?_ofPairs hnodup hmem hlt
  constructor
  · intro h
    by_cases hp : p ∈ positions pairs
    · obtain ⟨r, hr⟩ := mem_positions.1 hp
      have hr' : (JumpTable.ofPairs length pairs).partner? p = some r :=
        hr.elim (fun hr => (hpartner _ hr).1) (fun hr => (hpartner _ hr).2)
      rw [h] at hr'
      exact Option.some.inj hr' ▸ hr
    · rw [partner?_ofPairs_of_not_mem length hp] at h
      cases h
  · rintro (h | h)
    · exact (hpartner _ h).1
    · exact (hpartner _ h).2

theorem JumpTable.mem_entries {table : JumpTable} {p q : Nat} :
    (p, q) ∈ table.entries ↔ table.partner? p = some q := by
  have hmap : ∀ (partner : Option Nat) (position : Nat),
      partner.map (fun partner => (position, partner)) = some (p, q) ↔
        partner = some q ∧ position = p := by
    intro partner position
    cases partner <;> simp [and_comm]
  rw [entries, List.mem_filterMap, partner?, Option.join_eq_some_iff]
  constructor
  · rintro ⟨⟨partner, position⟩, hmem, h⟩
    obtain ⟨rfl, rfl⟩ := (hmap partner position).1 h
    rw [List.mk_mem_zipIdx_iff_getElem?, Array.getElem?_toList] at hmem
    exact hmem
  · intro h
    refine ⟨(some q, p), ?_, (hmap _ _).2 ⟨rfl, rfl⟩⟩
    rw [List.mk_mem_zipIdx_iff_getElem?, Array.getElem?_toList]
    exact h

/-! ## Texts -/

/-- The brackets in a text balance: no prefix has more closing than opening ones, and the whole text
has as many of the one as of the other. -/
def BalancedText (text : List Char) : Prop :=
  (∀ n ≤ text.length, (text.take n).count ']' ≤ (text.take n).count '[') ∧
    text.count ']' = text.count '['

theorem Bracket.ofChar?_eq_opening {c : Char} : ofChar? c = some .opening ↔ c = '[' := by
  unfold ofChar?
  split <;> simp_all

theorem Bracket.ofChar?_eq_closing {c : Char} : ofChar? c = some .closing ↔ c = ']' := by
  unfold ofChar?
  split <;> simp_all

theorem count_map_ofChar? {bracket : Bracket} {c : Char}
    (h : ∀ d, Bracket.ofChar? d = some bracket ↔ d = c) (text : List Char) :
    (text.map Bracket.ofChar?).count (some bracket) = text.count c := by
  rw [List.count, List.countP_map, List.count]
  refine List.countP_congr fun d _ => ?_
  simp [h]

theorem balanced_map_ofChar? (text : List Char) :
    Balanced (text.map Bracket.ofChar?) ↔ BalancedText text := by
  simp only [Balanced, BalancedFrom, BalancedText, ← List.map_take, List.length_map, Nat.zero_add,
    count_map_ofChar? fun _ => Bracket.ofChar?_eq_opening,
    count_map_ofChar? fun _ => Bracket.ofChar?_eq_closing]

/-- A table pairs the brackets of a text. -/
structure JumpTable.Pairs (table : JumpTable) (text : List Char) : Prop where
  /-- It has an entry at every bracket, and at no other place. -/
  key_iff : ∀ p, p ∈ table.entries.map Prod.fst ↔ text[p]? = some '[' ∨ text[p]? = some ']'
  /-- What is looked up is what is entered. -/
  lookup_iff : ∀ p q, table.partner? p = some q ↔ (p, q) ∈ table.entries
  /-- The partner of the partner is the bracket itself. -/
  symm : ∀ p q, table.partner? p = some q → table.partner? q = some p
  /-- An opening bracket has a closing one behind it for its partner, and the text between them is
  balanced. -/
  encloses : ∀ p q, text[p]? = some '[' → table.partner? p = some q →
    p < q ∧ text[q]? = some ']' ∧ BalancedText ((text.take q).drop (p + 1))
  /-- A pair that begins inside another one ends inside. -/
  not_cross : ∀ p q r s, text[p]? = some '[' → text[r]? = some '[' → table.partner? p = some q →
    table.partner? r = some s → p < r → r < q → s < q

section

variable {code : Nest Command Unit} {text : List Char} {bracket : Bracket} {c : Char}
  {p q position : Nat}

/-- A loop stands between its brackets. -/
theorem Nest.Joins.brackets (h : code.Joins 0 (p, q)) :
    p < q ∧ (code.ops.map Op.bracket?)[p]? = some (some .opening) ∧
      (code.ops.map Op.bracket?)[q]? = some (some .closing) ∧
        Balanced (((code.ops.map Op.bracket?).take q).drop (p + 1)) := by
  obtain ⟨before, after, body, hops, hpair⟩ := h
  rw [Nat.zero_add] at hpair
  obtain ⟨rfl, rfl⟩ := Prod.mk.inj hpair
  have hfront : code.ops = (before ++ .openLoop :: body.ops) ++ .closeLoop :: after := by
    simp [hops]
  have hlength : (before ++ .openLoop :: body.ops).length = before.length + body.size + 1 := by
    simp [Nat.add_assoc]
  have hclose : code.ops[before.length + body.size + 1]? = some .closeLoop := by
    rw [hfront, ← hlength, List.getElem?_append_right (Nat.le_refl _), Nat.sub_self]
    rfl
  have hbody : (code.ops.take (before.length + body.size + 1)).drop (before.length + 1) =
      body.ops := by
    rw [hfront, List.take_left' hlength, List.append_cons]
    exact List.drop_left' (by simp)
  refine ⟨by omega, by simp [hops, Op.bracket?], ?_, ?_⟩
  · rw [List.getElem?_map, hclose]
    rfl
  · rw [← List.map_take, ← List.map_drop, hbody]
    exact balanced_ops body

theorem getElem?_map_ofChar? (h : ∀ d, Bracket.ofChar? d = some bracket ↔ d = c) :
    (text.map Bracket.ofChar?)[p]? = some (some bracket) ↔ text[p]? = some c := by
  rw [List.getElem?_map, Option.map_eq_some_iff]
  simp [h]

theorem exists_partner_ops (h : (code.ops.map Op.bracket?)[p]? = some (some bracket)) :
    ∃ q, (JumpTable.ofPairs code.size (code.pairsFrom 0)).partner? p = some q := by
  rw [List.getElem?_map, Option.map_eq_some_iff] at h
  obtain ⟨op, hop, hbracket⟩ := h
  obtain ⟨program, hprogram, -, hplaced⟩ := Machine.exists_placed code
  rw [Machine.Program.ofCode?, ofBrackets?_ops] at hprogram
  cases hprogram
  have hpartner := hplaced.exists_partner hop (by rw [hbracket]; simp)
  rwa [Nat.zero_add] at hpartner

/-- The table of a text that has the brackets of a nest. -/
theorem pairs_ofPairs (h : code.ops.map Op.bracket? = text.map Bracket.ofChar?) :
    (JumpTable.ofPairs code.size (code.pairsFrom 0)).Pairs text := by
  have hopening (p : Nat) : text[p]? = some '[' ↔
      (code.ops.map Op.bracket?)[p]? = some (some .opening) := by
    rw [h, getElem?_map_ofChar? fun _ => Bracket.ofChar?_eq_opening]
  have hclosing (p : Nat) : text[p]? = some ']' ↔
      (code.ops.map Op.bracket?)[p]? = some (some .closing) := by
    rw [h, getElem?_map_ofChar? fun _ => Bracket.ofChar?_eq_closing]
  have hpartner (p q : Nat) : (JumpTable.ofPairs code.size (code.pairsFrom 0)).partner? p = some q ↔
      (p, q) ∈ code.pairsFrom 0 ∨ (q, p) ∈ code.pairsFrom 0 := by
    refine partner?_ofPairs_iff (nodup_positions_pairsFrom code 0) fun p hp => ?_
    have := mem_positions_pairsFrom hp
    omega
  -- A bracket has its partner in the pair that it opens or closes, as its sign tells.
  have hpair {p q : Nat} (hp : text[p]? = some '[')
      (hq : (JumpTable.ofPairs code.size (code.pairsFrom 0)).partner? p = some q) :
      (p, q) ∈ code.pairsFrom 0 := by
    refine ((hpartner p q).1 hq).resolve_right fun hmem => ?_
    have hclose := (joins_of_mem_pairsFrom hmem).brackets.2.2.1
    rw [(hopening p).1 hp] at hclose
    cases hclose
  refine ⟨fun p => ?_, fun p q => JumpTable.mem_entries.symm, fun p q hq => ?_, fun p q hp hq => ?_,
    fun p q r s hp hr hq hs hpr hrq => ?_⟩
  · rw [List.mem_map, hopening, hclosing]
    constructor
    · rintro ⟨⟨p, q⟩, hmem, rfl⟩
      rcases (hpartner p q).1 (JumpTable.mem_entries.1 hmem) with hmem | hmem
      · exact .inl (joins_of_mem_pairsFrom hmem).brackets.2.1
      · exact .inr (joins_of_mem_pairsFrom hmem).brackets.2.2.1
    · intro hbracket
      obtain ⟨q, hq⟩ := hbracket.elim exists_partner_ops exists_partner_ops
      exact ⟨(p, q), JumpTable.mem_entries.2 hq, rfl⟩
  · exact (hpartner q p).2 ((hpartner p q).1 hq).symm
  · obtain ⟨hlt, -, hclose, hbalanced⟩ := (joins_of_mem_pairsFrom (hpair hp hq)).brackets
    refine ⟨hlt, (hclosing q).2 hclose, ?_⟩
    rwa [h, ← List.map_take, ← List.map_drop, balanced_map_ofChar?] at hbalanced
  · exact lt_of_mem_pairsFrom (hpair hp hq) (hpair hr hs) hpr hrq

end

/-- **Brackets are matched.** A text has no jump table exactly if its brackets do not balance. The
table of a text has its brackets for keys and leads from each one to its partner and back; what
stands between two partners is balanced itself, so no two pairs cross. -/
theorem jumpTable_pairs (text : String) :
    (JumpTable.ofBrackets? (text.toList.map Bracket.ofChar?) = none ↔ ¬BalancedText text.toList) ∧
      ∀ table, JumpTable.ofBrackets? (text.toList.map Bracket.ofChar?) = some table →
        table.Pairs text.toList := by
  have hsome := isSome_ofBrackets? (text.toList.map Bracket.ofChar?)
  rw [balanced_map_ofChar?] at hsome
  refine ⟨by rw [← hsome, Option.not_isSome_iff_eq_none], fun table htable => ?_⟩
  rw [htable, Option.isSome_some, eq_self, true_iff, ← balanced_map_ofChar?] at hsome
  obtain ⟨code, hcode⟩ := hsome.exists_nest
  rw [← hcode, ofBrackets?_ops] at htable
  cases htable
  exact pairs_ofPairs hcode

/-- Two loops side by side inside a third one, with a remark between them. -/
theorem jumpTable_pairs_remark : ∃ table,
    JumpTable.ofBrackets? ("[[-]a[]]".toList.map Bracket.ofChar?) = some table ∧
      table.Pairs "[[-]a[]]".toList ∧
      table.entries = [(0, 7), (1, 3), (3, 1), (5, 6), (6, 5), (7, 0)] :=
  ⟨_, rfl, (jumpTable_pairs "[[-]a[]]").2 _ rfl, by decide⟩

end TapeCompiler
