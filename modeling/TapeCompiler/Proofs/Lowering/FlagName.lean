import TapeCompiler.Lowering.InternalName
import TapeCompiler.Proofs.Text.Characters
/-!
# Names of flags

Flags with natural numbers have reserved names, so no variable is taken for one. The first four
letters of a name tell the four kinds of flags and the other internal names apart, and of one kind
the numbers in the name do (`Flag.name_inj`).
-/
namespace TapeCompiler

open TapeCompiler.Text

/-! ## Flags are reserved -/

theorem isDecimalRun_of_isDigits {digits : List Char} (h : isDigits digits = true) :
    isDecimalRun digits = true := by
  obtain ⟨hne, hall⟩ := isDigits_spec h
  simp only [isDecimalRun, Bool.and_eq_true, Bool.not_eq_true', List.isEmpty_eq_false_iff,
    List.all_eq_true]
  exact ⟨hne, fun c hc => isDecimalDigit_of_isDigit (hall c hc)⟩

theorem underscore_not_mem {digits : List Char} (h : isDigits digits = true) : '_' ∉ digits := by
  intro hmem
  have hdigit := (isDigits_spec h).2 '_' hmem
  simp at hdigit

theorem isIndexPair_of_isDigits {depth term : List Char} (hdepth : isDigits depth = true)
    (hterm : isDigits term = true) : isIndexPair (depth ++ '_' :: term) = true := by
  rw [isIndexPair, List.splitOn_append_cons_self_of_not_mem (underscore_not_mem hdepth),
    List.splitOn_eq_singleton (underscore_not_mem hterm)]
  simp [isDecimalRun_of_isDigits, hdepth, hterm]

theorem hasForm_append {stem : String} {tail : List Char → Bool} {text : List Char}
    (h : tail text = true) : hasForm stem tail (stem.toList ++ text) = true := by
  simp [hasForm, h]

theorem withoutFinalLineFeed_append_toDigits (text : List Char) (n : Nat) :
    withoutFinalLineFeed (text ++ Nat.toDigits 10 n) = text ++ Nat.toDigits 10 n := by
  refine if_neg fun h => ?_
  have hlast : (Nat.toDigits 10 n).getLast? = some '\n' := by
    rw [← h, List.getLast?_append, List.getLast?_eq_some_getLast Nat.toDigits_ne_nil]
    rfl
  have := Nat.isDigit_of_mem_toDigits (by decide) (by decide) (List.mem_of_getLast? hlast)
  simp at this

/-- A stem before a number is a flag if it is one before every digit run. -/
theorem isReserved_append_toString {stem : String} {n : Nat}
    (h : isFlagText (stem.toList ++ Nat.toDigits 10 n) = true) :
    isReserved (stem ++ toString (n : Int)) = true := by
  rw [isReserved, String.toList_append, toList_toString_natCast,
    withoutFinalLineFeed_append_toDigits, h, Bool.or_true]

theorem toList_append_toString (stem : String) (d : Nat) (rest : List Char) :
    (stem ++ toString (d : Int) ++ "_").toList ++ rest =
      stem.toList ++ (Nat.toDigits 10 d ++ '_' :: rest) := by
  simp only [String.toList_append, toList_toString_natCast, List.append_assoc]
  rfl

/-- Both numbers of a flag are natural. -/
def Flag.Natural : Flag → Prop
  | difference depth term | equality depth term => 0 ≤ depth ∧ 0 ≤ term
  | untaken depth | again depth => 0 ≤ depth

theorem isReserved_name (flag : Flag) (h : flag.Natural) : isReserved flag.name = true := by
  cases flag with
  | difference depth term =>
    obtain ⟨d, rfl⟩ := Int.eq_ofNat_of_zero_le h.1
    obtain ⟨t, rfl⟩ := Int.eq_ofNat_of_zero_le h.2
    have hform := isIndexPair_of_isDigits (isDigits_toDigits d) (isDigits_toDigits t)
    refine isReserved_append_toString ?_
    rw [toList_append_toString]
    simp only [isFlagText, hasForm_append hform, Bool.true_or]
  | equality depth term =>
    obtain ⟨d, rfl⟩ := Int.eq_ofNat_of_zero_le h.1
    obtain ⟨t, rfl⟩ := Int.eq_ofNat_of_zero_le h.2
    have hform := isIndexPair_of_isDigits (isDigits_toDigits d) (isDigits_toDigits t)
    refine isReserved_append_toString ?_
    rw [toList_append_toString]
    simp only [isFlagText, hasForm_append hform, Bool.true_or, Bool.or_true]
  | untaken depth =>
    obtain ⟨d, rfl⟩ := Int.eq_ofNat_of_zero_le h
    have hform := isDecimalRun_of_isDigits (isDigits_toDigits d)
    refine isReserved_append_toString ?_
    simp only [isFlagText, hasForm_append hform, Bool.true_or, Bool.or_true]
  | again depth =>
    obtain ⟨d, rfl⟩ := Int.eq_ofNat_of_zero_le h
    have hform := isDecimalRun_of_isDigits (isDigits_toDigits d)
    refine isReserved_append_toString ?_
    simp only [isFlagText, hasForm_append hform, Bool.or_true]

theorem ne_of_isReserved {x internal : String} (hx : isReserved x = false)
    (hinternal : isReserved internal = true) : x ≠ internal := by
  rintro rfl
  rw [hinternal] at hx
  cases hx

theorem isReserved_scratchName : isReserved scratchName = true := by
  simp [isReserved]

/-! ## Kinds of names -/

/-- The first letters of a flag, which tell what kind of flag it is. -/
def Flag.kind : Flag → List Char
  | difference _ _ => ['_', '_', 'i', 'f']
  | equality _ _ => ['_', '_', 'e', 'q']
  | untaken _ => ['_', '_', 'e', 'l']
  | again _ => ['_', '_', 'w', 'h']

theorem Flag.take_name (flag : Flag) : flag.name.toList.take 4 = flag.kind := by
  cases flag <;> simp [Flag.name, Flag.kind]

theorem Flag.name_ne {flag other : Flag} (h : flag.kind ≠ other.kind) : flag.name ≠ other.name := by
  intro he
  rw [← flag.take_name, ← other.take_name, he] at h
  exact h rfl

theorem Flag.name_ne_scratchName (flag : Flag) : flag.name ≠ scratchName := by
  intro he
  have h := flag.take_name
  rw [he] at h
  cases flag <;> simp [scratchName, Flag.kind] at h

theorem Flag.name_ne_rowWidthName (flag : Flag) : flag.name ≠ rowWidthName := by
  intro he
  have h := flag.take_name
  rw [he] at h
  cases flag <;> simp [rowWidthName, Flag.kind] at h

/-- A name of the scratch cell or of a flag. -/
def IsInternal (x : String) : Prop :=
  x = scratchName ∨ ∃ flag : Flag, flag.Natural ∧ x = flag.name

theorem IsInternal.isReserved {x : String} (h : IsInternal x) : isReserved x = true := by
  rcases h with rfl | ⟨flag, hflag, rfl⟩
  · exact isReserved_scratchName
  · exact isReserved_name flag hflag

theorem IsInternal.ne_rowWidthName {x : String} (h : IsInternal x) : x ≠ rowWidthName := by
  rcases h with rfl | ⟨flag, -, rfl⟩
  · decide
  · exact flag.name_ne_rowWidthName

/-! ## Numbers of flags -/

/-- The depth of the block that a flag guards. -/
def Flag.depth : Flag → Int
  | difference depth _ | equality depth _ | untaken depth | again depth => depth

theorem toDigits_inj {m n : Nat} (h : Nat.toDigits 10 m = Nat.toDigits 10 n) : m = n := by
  rw [← digitsValue_toDigits m, h, digitsValue_toDigits]

/-- The underscore tells where the first number ends. -/
theorem toDigits_pair_inj {m n m' n' : Nat}
    (h : Nat.toDigits 10 m ++ '_' :: Nat.toDigits 10 n =
      Nat.toDigits 10 m' ++ '_' :: Nat.toDigits 10 n') : m = m' ∧ n = n' := by
  have hsplit := congrArg (List.splitOn '_') h
  rw [List.splitOn_append_cons_self_of_not_mem Nat.underscore_not_in_toDigits,
    List.splitOn_append_cons_self_of_not_mem Nat.underscore_not_in_toDigits,
    List.splitOn_eq_singleton Nat.underscore_not_in_toDigits,
    List.splitOn_eq_singleton Nat.underscore_not_in_toDigits] at hsplit
  obtain ⟨hfirst, hrest⟩ := List.cons.inj hsplit
  exact ⟨toDigits_inj hfirst, toDigits_inj (List.cons.inj hrest).1⟩

theorem append_toString_inj {stem : String} {m n : Int} (hm : 0 ≤ m) (hn : 0 ≤ n)
    (h : stem ++ toString m = stem ++ toString n) : m = n := by
  obtain ⟨m, rfl⟩ := Int.eq_ofNat_of_zero_le hm
  obtain ⟨n, rfl⟩ := Int.eq_ofNat_of_zero_le hn
  have htext := congrArg String.toList h
  rw [String.toList_append, String.toList_append, List.append_cancel_left_eq,
    toList_toString_natCast, toList_toString_natCast] at htext
  rw [toDigits_inj htext]

theorem append_pair_inj {stem : String} {m n m' n' : Int} (hm : 0 ≤ m ∧ 0 ≤ n)
    (hm' : 0 ≤ m' ∧ 0 ≤ n') (h : stem ++ toString m ++ "_" ++ toString n =
      stem ++ toString m' ++ "_" ++ toString n') : m = m' ∧ n = n' := by
  obtain ⟨m, rfl⟩ := Int.eq_ofNat_of_zero_le hm.1
  obtain ⟨n, rfl⟩ := Int.eq_ofNat_of_zero_le hm.2
  obtain ⟨m', rfl⟩ := Int.eq_ofNat_of_zero_le hm'.1
  obtain ⟨n', rfl⟩ := Int.eq_ofNat_of_zero_le hm'.2
  have htext := congrArg String.toList h
  rw [String.toList_append, toList_toString_natCast, toList_append_toString, String.toList_append,
    toList_toString_natCast, toList_append_toString, List.append_cancel_left_eq] at htext
  obtain ⟨rfl, rfl⟩ := toDigits_pair_inj htext
  exact ⟨rfl, rfl⟩

/-- A flag is known by its name. -/
theorem Flag.name_inj {flag other : Flag} (h : flag.Natural) (h' : other.Natural)
    (he : flag.name = other.name) : flag = other := by
  have hkind : flag.kind = other.kind := by
    rw [← flag.take_name, ← other.take_name, he]
  cases flag with
  | difference depth term =>
    cases other with
    | difference depth' term' =>
      obtain ⟨rfl, rfl⟩ := append_pair_inj h h' he
      rfl
    | equality | untaken | again => simp [Flag.kind] at hkind
  | equality depth term =>
    cases other with
    | equality depth' term' =>
      obtain ⟨rfl, rfl⟩ := append_pair_inj h h' he
      rfl
    | difference | untaken | again => simp [Flag.kind] at hkind
  | untaken depth =>
    cases other with
    | untaken depth' =>
      obtain rfl := append_toString_inj h h' he
      rfl
    | difference | equality | again => simp [Flag.kind] at hkind
  | again depth =>
    cases other with
    | again depth' =>
      obtain rfl := append_toString_inj h h' he
      rfl
    | difference | equality | untaken => simp [Flag.kind] at hkind

end TapeCompiler
