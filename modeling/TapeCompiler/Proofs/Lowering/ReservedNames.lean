import TapeCompiler.Compile
import TapeCompiler.Proofs.Lowering.FirstOccurrence
import TapeCompiler.Proofs.Lowering.Mentions
import TapeCompiler.Proofs.Source.Scanning
import TapeCompiler.Proofs.Text.Lines
/-!
# Internal names

The scratch cell, the width of a row and the flags have names of their own: no two of them share one,
all of them are reserved, and code mentions no others but the variables of its block. Of the names
that a text can hold, the reserved ones are just these, with any ASCII digits as their numbers
(`internalNames_apart`).
-/
namespace TapeCompiler

open TapeCompiler.Text

/-- What code names besides the variables of its program. -/
inductive InternalName where
  | scratch
  | rowWidth
  | flag (f : Flag)
  deriving DecidableEq, Repr

namespace InternalName

def name : InternalName → String
  | scratch => scratchName
  | rowWidth => rowWidthName
  | flag f => f.name

/-- The numbers in it, if there are any, are natural. -/
def Natural : InternalName → Prop
  | scratch | rowWidth => True
  | flag f => f.Natural

theorem isReserved {internal : InternalName} (h : internal.Natural) :
    isReserved internal.name = true := by
  cases internal with
  | scratch => exact isReserved_scratchName
  | rowWidth => exact isReserved_rowWidthName
  | flag f => exact isReserved_name f h

theorem name_inj {internal other : InternalName} (h : internal.Natural) (h' : other.Natural)
    (he : internal.name = other.name) : internal = other := by
  cases internal with
  | scratch =>
    cases other with
    | scratch => rfl
    | rowWidth => exact absurd he (by decide)
    | flag f => exact absurd he.symm f.name_ne_scratchName
  | rowWidth =>
    cases other with
    | scratch => exact absurd he (by decide)
    | rowWidth => rfl
    | flag f => exact absurd he.symm f.name_ne_rowWidthName
  | flag f =>
    cases other with
    | scratch => exact absurd he f.name_ne_scratchName
    | rowWidth => exact absurd he f.name_ne_rowWidthName
    | flag g => exact congrArg flag (Flag.name_inj h h' he)

end InternalName

/-- Code names the variables of its block, and internal things. -/
theorem variable_or_internal_of_mem_names {block : Block} {depth : Int} (hdepth : 0 ≤ depth) :
    ∀ x ∈ (lowerBlock depth block).names,
      x ∈ namesOf block ∨ ∃ internal : InternalName, internal.Natural ∧ x = internal.name := by
  refine forall_names_lowerBlock (.inr ⟨.rowWidth, trivial, rfl⟩) block depth ?_
  refine Block.forall_mem_cells (.inr ⟨.scratch, trivial, rfl⟩) block depth hdepth ?_ ?_
  · exact fun flag h _ => .inr ⟨.flag flag, h, rfl⟩
  · exact fun x hx => .inl hx

/-! ## Which texts are reserved -/

/-- The texts of internal names. Their numbers are digit runs, which may begin with zeros. -/
inductive ReservedForm : List Char → Prop
  | scratch : ReservedForm scratchName.toList
  | rowWidth : ReservedForm rowWidthName.toList
  | pair {stem : String} {depth term : List Char} (hstem : stem = "__if_" ∨ stem = "__eq_")
    (hdepth : isDigits depth = true) (hterm : isDigits term = true) :
    ReservedForm (stem.toList ++ (depth ++ '_' :: term))
  | single {stem : String} {depth : List Char} (hstem : stem = "__else_" ∨ stem = "__while_")
    (hdepth : isDigits depth = true) : ReservedForm (stem.toList ++ depth)

section

variable {stem x : String} {tail : List Char → Bool} {text depth term : List Char}

theorem hasForm_iff :
    hasForm stem tail text = true ↔ ∃ rest, text = stem.toList ++ rest ∧ tail rest = true := by
  constructor
  · intro h
    rw [hasForm, Bool.and_eq_true, List.isPrefixOf_iff_prefix] at h
    obtain ⟨⟨rest, rfl⟩, htail⟩ := h
    rw [List.drop_left] at htail
    exact ⟨rest, rfl, htail⟩
  · rintro ⟨rest, rfl, htail⟩
    exact hasForm_append htail

theorem exists_of_isIndexPair (h : isIndexPair text = true) :
    ∃ depth term, text = depth ++ '_' :: term ∧
      isDecimalRun depth = true ∧ isDecimalRun term = true := by
  rw [isIndexPair] at h
  split at h
  · next depth term hsplit =>
    exact ⟨depth, term, eq_append_of_splitOn hsplit, Bool.and_eq_true_iff.1 h⟩
  · cases h

/-- All other decimal digits lie beyond ASCII. -/
theorem isDigit_of_isDecimalDigit {c : Char} (hascii : c.toNat < 0x80)
    (h : isDecimalDigit c = true) : c.isDigit = true := by
  have hzeros : ∀ z ∈ decimalZeros, z = 0x30 ∨ 0x80 ≤ z := by decide
  rw [isDecimalDigit, decimalDigit?, Option.isSome_map, List.find?_isSome] at h
  obtain ⟨z, hz, hrange⟩ := h
  rw [Bool.and_eq_true, decide_eq_true_eq, decide_eq_true_eq] at hrange
  rw [Char.isDigit_iff_toNat]
  have hzero := hzeros z hz
  show 48 ≤ c.toNat ∧ c.toNat ≤ 57
  omega

theorem isDigits_of_isDecimalRun (hname : ∀ c ∈ text, isNameChar c = true)
    (h : isDecimalRun text = true) : isDigits text = true := by
  rw [isDecimalRun, Bool.and_eq_true, List.all_eq_true] at h
  rw [isDigits, Bool.and_eq_true, List.all_eq_true]
  refine ⟨h.1, fun c hc => isDigit_of_isDecimalDigit ?_ (h.2 c hc)⟩
  have hchar := hname c hc
  rw [isNameChar_iff_toNat, isNameStart_iff_toNat] at hchar
  omega

theorem withoutFinalLineFeed_of_isName (h : isName text = true) :
    withoutFinalLineFeed text = text := by
  refine if_neg fun hlast => ?_
  have hchar := (isName_spec h).2.1 '\n' (List.mem_of_getLast? hlast)
  simp [isNameChar, isNameStart] at hchar

/-- The name characters of a reserved text leave it only ASCII digits for its numbers. -/
theorem ReservedForm.of_isFlagText (hname : ∀ c ∈ text, isNameChar c = true)
    (h : isFlagText text = true) : ReservedForm text := by
  simp only [isFlagText, Bool.or_eq_true, hasForm_iff] at h
  obtain ((⟨rest, rfl, htail⟩ | ⟨rest, rfl, htail⟩) | ⟨rest, rfl, htail⟩) | ⟨rest, rfl, htail⟩ := h
  · rw [List.forall_mem_append] at hname
    obtain ⟨depth, term, rfl, hdepth, hterm⟩ := exists_of_isIndexPair htail
    rw [List.forall_mem_append, List.forall_mem_cons] at hname
    exact .pair (.inl rfl) (isDigits_of_isDecimalRun hname.2.1 hdepth)
      (isDigits_of_isDecimalRun hname.2.2.2 hterm)
  · rw [List.forall_mem_append] at hname
    obtain ⟨depth, term, rfl, hdepth, hterm⟩ := exists_of_isIndexPair htail
    rw [List.forall_mem_append, List.forall_mem_cons] at hname
    exact .pair (.inr rfl) (isDigits_of_isDecimalRun hname.2.1 hdepth)
      (isDigits_of_isDecimalRun hname.2.2.2 hterm)
  · exact .single (.inl rfl) (isDigits_of_isDecimalRun (List.forall_mem_append.1 hname).2 htail)
  · exact .single (.inr rfl) (isDigits_of_isDecimalRun (List.forall_mem_append.1 hname).2 htail)

theorem isFlagText_pair (hstem : stem = "__if_" ∨ stem = "__eq_") (hdepth : isDigits depth = true)
    (hterm : isDigits term = true) :
    isFlagText (stem.toList ++ (depth ++ '_' :: term)) = true := by
  have hform := isIndexPair_of_isDigits hdepth hterm
  rcases hstem with rfl | rfl <;> simp only [isFlagText, hasForm_append hform, Bool.true_or,
    Bool.or_true]

theorem isFlagText_single (hstem : stem = "__else_" ∨ stem = "__while_")
    (hdepth : isDigits depth = true) : isFlagText (stem.toList ++ depth) = true := by
  have hform := isDecimalRun_of_isDigits hdepth
  rcases hstem with rfl | rfl <;> simp only [isFlagText, hasForm_append hform, Bool.true_or,
    Bool.or_true]

/-- Of the names, those are reserved that have the text of an internal name. -/
theorem isReserved_iff (h : isName x.toList = true) :
    isReserved x = true ↔ ReservedForm x.toList := by
  rw [isReserved, withoutFinalLineFeed_of_isName h, Bool.or_eq_true, Bool.or_eq_true, beq_iff_eq,
    beq_iff_eq]
  constructor
  · rintro ((rfl | rfl) | hflag)
    · exact .scratch
    · exact .rowWidth
    · exact .of_isFlagText (isName_spec h).2.1 hflag
  · intro hform
    generalize htext : x.toList = text at hform
    cases hform with
    | scratch => exact .inl (.inl (String.toList_inj.1 htext))
    | rowWidth => exact .inl (.inr (String.toList_inj.1 htext))
    | pair hstem hdepth hterm => exact .inr (isFlagText_pair hstem hdepth hterm)
    | single hstem hdepth => exact .inr (isFlagText_single hstem hdepth)

end

/-- **Internal names never collide.** They are reserved, and different things have different names.
Code mentions nothing but the variables of its block and internal names, and the variables of a
program that is accepted are none of those. A name in a source text is reserved exactly if it is the
text of an internal name, its numbers being any runs of ASCII digits. -/
theorem internalNames_apart :
    (∀ internal : InternalName, internal.Natural → isReserved internal.name = true) ∧
    (∀ internal other : InternalName, internal.Natural → other.Natural →
      internal.name = other.name → internal = other) ∧
    (∀ (block : Block) (depth : Int), 0 ≤ depth → ∀ x ∈ (lowerBlock depth block).names,
      x ∈ namesOf block ∨ ∃ internal : InternalName, internal.Natural ∧ x = internal.name) ∧
    (∀ program names, variablesOf program = .ok names → ∀ x ∈ names,
      ∀ internal : InternalName, internal.Natural → x ≠ internal.name) ∧
    ∀ source tokens, tokenize source = .ok tokens → ∀ t ∈ tokens, t.kind = .name →
      (isReserved t.text = true ↔ ReservedForm t.text.toList) := by
  refine ⟨fun _ => InternalName.isReserved, fun _ _ => InternalName.name_inj, ?_, ?_, ?_⟩
  · exact fun block depth => variable_or_internal_of_mem_names
  · intro program names hnames x hx internal hinternal
    obtain ⟨hnone, rfl⟩ := variablesOf_eq_ok_iff.1 hnames
    rw [Layout.mem_names_ofNames] at hx
    have hfree : isReserved x = false := by
      simpa using List.find?_eq_none.1 hnone x hx
    exact ne_of_isReserved hfree (InternalName.isReserved hinternal)
  · intro source tokens htokens t ht hkind
    have hfits := (Scan.tokens_fit (mapError_eq_ok.1 htokens)).1 t ht
    exact isReserved_iff (hfits.1 hkind)

/-- The numbers `1, 11` and `11, 1` do not run together, `__while` lacks its number and may be a
variable, and `__else_007` is reserved although no flag is called so. -/
theorem internalNames_apart_lookalikes :
    isReserved (Flag.difference 1 11).name = true ∧
    (Flag.difference 1 11).name ≠ (Flag.difference 11 1).name ∧
    (∀ x ∈ (lowerBlock 2 [.branch [⟨"__while", .equal, 3⟩] [.input "_tmp"]]).names,
      x = "__while" ∨ x = "_tmp" ∨
        ∃ internal : InternalName, internal.Natural ∧ x = internal.name) ∧
    (∀ internal : InternalName, internal.Natural → "__while" ≠ internal.name) ∧
    ReservedForm "__else_007".toList := by
  obtain ⟨hreserved, hinj, hcode, hvariables, hsource⟩ := internalNames_apart
  refine ⟨hreserved (.flag (.difference 1 11)) ⟨by decide, by decide⟩, ?_, ?_, ?_, ?_⟩
  · intro he
    cases hinj (.flag (.difference 1 11)) (.flag (.difference 11 1)) ⟨by decide, by decide⟩
      ⟨by decide, by decide⟩ he
  · intro x hx
    rcases hcode _ 2 (by decide) x hx with hmem | hinternal
    · rcases List.mem_pair.1 (show x ∈ ["__while", "_tmp"] from hmem) with h | h
      · exact .inl h
      · exact .inr (.inl h)
    · exact .inr (.inr hinternal)
  · exact hvariables [.branch [⟨"__while", .equal, 3⟩] [.input "_tmp"]] _ rfl "__while"
      (by decide)
  · exact (hsource "__else_007 = 1" _ rfl ⟨.name, "__else_007", ⟨1, 1⟩⟩ (by decide) rfl).1 rfl

end TapeCompiler
