import Mathlib.Data.List.Infix
import Mathlib.Data.List.TakeWhile
import TapeCompiler.CommandLine.Arguments
import TapeCompiler.Proofs.Text.Lines
/-!
# What an argument gives

The rules by which arguments are sorted into words, each spelled out with its own text. A name of two
dashes may be cut short, letters behind one dash may be run together, and a value may be attached to
either. What begins with a dash and is none of these is still no switch if it is a negative number
or has a space in it. The parts of the rules are what the parts of the sorting look for: the names and
the texts that they may be cut to (`mem_completions_iff`), what is before an equals sign
(`splitEquals?_append`), letters (`Letters.attachShort_eq`) and numbers (`isNegativeNumber_iff`).
-/
namespace TapeCompiler.CommandLine

open TapeCompiler.Text

/-! ## Rules -/

/-- The names of two dashes and the switches that they name. -/
def longNames : List (String × Switch) :=
  [("--output", .output), ("--asm", .assembly), ("--emit-asm", .emitListing),
   ("--annotate", .annotate), ("--run", .run), ("--input", .input), ("--verbose", .verbose)]

/-- A text of two dashes that the name goes on from. -/
def CutFrom (text : List Char) (name : String) : Prop := ['-', '-'] <+: text ∧ text <+: name.toList

/-- A name of the switch, whole or cut short. No other name goes on from there, not even the one that
asks for help. -/
def Names (text : List Char) (s : Switch) : Prop :=
  ∃ name, (name, s) ∈ longNames ∧ CutFrom text name ∧
    ∀ other ∈ "--help" :: longNames.map Prod.fst, CutFrom text other → other = name

/-- The switches that have a value. -/
def Switch.Valued (s : Switch) : Prop := s = .output ∨ s = .input

/-- The value that an attached text is. Two dashes leave the switch without one. -/
def valueOf (text : List Char) : Option String :=
  if text = ['-', '-'] then none else some (String.ofList text)

/-- The letters behind one dash. The value of `o` is all that follows it. -/
inductive Letters : List Char → List Word → Prop
  | output : Letters ['o'] [.switch .output]
  | outputValue {value : List Char} (hvalue : value ≠ []) :
    Letters ('o' :: value) [.valued .output (valueOf value)]
  | verbose : Letters ['v'] [.switch .verbose]
  | more {rest : List Char} {ws : List Word} (h : Letters rest ws) :
    Letters ('v' :: rest) (.switch .verbose :: ws)

/-- A negative number in decimal digits, whole or with a point. -/
inductive NegativeNumber : List Char → Prop
  | whole {digits : List Char} (h : isDecimalRun digits = true) : NegativeNumber ('-' :: digits)
  | point {digits fraction : List Char} (h : ∀ c ∈ digits, isDecimalDigit c = true)
    (hfraction : isDecimalRun fraction = true) :
    NegativeNumber ('-' :: (digits ++ '.' :: fraction))

/-- A text that begins as a switch does. -/
def BeginsSwitch (text : List Char) : Prop :=
  ['-', 'o'] <+: text ∨ ['-', 'v'] <+: text ∨
    ∃ name ∈ longNames.map Prod.fst, CutFrom (text.takeWhile (· ≠ '=')) name

/-- The words that an argument gives by itself. -/
inductive Gives : List Char → List Word → Prop
  | plain {text : List Char} (h : text.head? ≠ some '-' ∨ text = ['-']) :
    Gives text [.plain (String.ofList text)]
  | name {text : List Char} {s : Switch} (h : Names text s) : Gives text [.switch s]
  | nameValue {text : List Char} {s : Switch} (h : Names text s) (hs : s.Valued)
    (value : List Char) : Gives (text ++ '=' :: value) [.valued s (valueOf value)]
  | letters {cs : List Char} {ws : List Word} (h : Letters cs ws) (hequals : ¬['o', '='] <+: cs) :
    Gives ('-' :: cs) ws
  | outputEquals (value : List Char) :
    Gives ('-' :: 'o' :: '=' :: value) [.valued .output (valueOf value)]
  /-- Behind `v` an equals sign might as well not be there, unless it is the end. -/
  | verboseEquals {cs : List Char} {ws : List Word} (h : Letters ('v' :: cs) ws) (hcs : cs ≠ []) :
    Gives ('-' :: 'v' :: '=' :: cs) ws
  | noSwitch {text : List Char} (hdash : text.head? = some '-') (hne : text ≠ ['-'])
    (hswitch : ¬BeginsSwitch text)
    (h : ' ' ∈ text ∨ NegativeNumber text ∨ ∃ number, text = number ++ ['\n'] ∧ NegativeNumber number) :
    Gives text [.plain (String.ofList text)]

/-- The words that arguments give. Behind two dashes none is a switch. -/
inductive GivesAll : List String → List Word → Prop
  | nil : GivesAll [] []
  | separator (rest : List String) : GivesAll ("--" :: rest) (.separator :: rest.map .plain)
  | cons {argument : String} {rest : List String} {ws others : List Word} (hne : argument ≠ "--")
    (h : Gives argument.toList ws) (hrest : GivesAll rest others) :
    GivesAll (argument :: rest) (ws ++ others)

/-- Words that a request may be made of. -/
def Word.Usable : Word → Prop
  | .misvalued _ _ | .unknownSwitch _ => False
  | _ => True

/-! ## Names -/

section

variable {s next : Switch} {x name : String} {c : Char} {text rest value : List Char} {ws : List Word}

theorem takesValue_iff : s.takesValue = true ↔ s.Valued := by
  cases s <;> simp [Switch.takesValue, Switch.Valued]

theorem ofSpelling?_eq_some_iff : Switch.ofSpelling? x = some s ↔ x ∈ s.spellings := by
  constructor
  · intro h
    simpa using List.find?_some h
  · intro h
    cases s <;> simp only [Switch.spellings, List.mem_cons, List.not_mem_nil, or_false] at h
    case output | verbose => rcases h with rfl | rfl <;> rfl
    all_goals subst h; rfl

theorem mem_spellings_iff : x ∈ s.spellings ↔
    (x, s) ∈ longNames ∨ x = "-o" ∧ s = .output ∨ x = "-v" ∧ s = .verbose := by
  cases s <;> simp [Switch.spellings, longNames, or_comm]

/-- The names go on behind two dashes, and there is no equals sign in them. -/
theorem spec_of_mem_longNames (h : (name, s) ∈ longNames) :
    ['-', '-'] <+: name.toList ∧ 2 < name.toList.length ∧ '=' ∉ name.toList := by
  have hall : ∀ entry ∈ longNames, ['-', '-'] <+: entry.1.toList ∧ 2 < entry.1.toList.length ∧
      '=' ∉ entry.1.toList := by decide
  exact hall _ h

theorem mem_spellings_of_mem_longNames (h : (name, s) ∈ longNames) : name ∈ s.spellings :=
  mem_spellings_iff.2 (.inl h)

theorem eq_of_mem_longNames (h : (name, s) ∈ longNames) (h' : (name, next) ∈ longNames) : s = next :=
  Option.some.inj ((ofSpelling?_eq_some_iff.2 (mem_spellings_of_mem_longNames h)).symm.trans
    (ofSpelling?_eq_some_iff.2 (mem_spellings_of_mem_longNames h')))

theorem cases_of_ofSpelling? (h : Switch.ofSpelling? (String.ofList text) = some s) :
    (∃ name, (name, s) ∈ longNames ∧ text = name.toList) ∨
      text = ['-', 'o'] ∧ s = .output ∨ text = ['-', 'v'] ∧ s = .verbose := by
  rcases mem_spellings_iff.1 (ofSpelling?_eq_some_iff.1 h) with hlong | ⟨htext, rfl⟩ | ⟨htext, rfl⟩
  · exact .inl ⟨_, hlong, String.toList_ofList.symm⟩
  · exact .inr (.inl ⟨by simpa using congrArg String.toList htext, rfl⟩)
  · exact .inr (.inr ⟨by simpa using congrArg String.toList htext, rfl⟩)

/-- A text of two characters names a switch if its letter does. -/
theorem ofSpelling?_pair {c d : Char} (h : Switch.ofSpelling? (String.ofList [c, d]) = some s) :
    c = '-' ∧ (d = 'o' ∧ s = .output ∨ d = 'v' ∧ s = .verbose) := by
  rcases cases_of_ofSpelling? h with ⟨name, hlong, hname⟩ | ⟨⟨⟩, rfl⟩ | ⟨⟨⟩, rfl⟩
  · have hlength := (spec_of_mem_longNames hlong).2.1
    rw [← hname] at hlength
    exact absurd hlength (by simp)
  · exact ⟨rfl, .inl ⟨rfl, rfl⟩⟩
  · exact ⟨rfl, .inr ⟨rfl, rfl⟩⟩

theorem names_of_mem_longNames (h : (name, s) ∈ longNames) : Names name.toList s := by
  have hall : ∀ entry ∈ longNames, ∀ other ∈ "--help" :: longNames.map Prod.fst,
      entry.1.toList <+: other.toList → other = entry.1 := by decide
  exact ⟨name, h, ⟨(spec_of_mem_longNames h).1, List.prefix_rfl⟩,
    fun other hother hcut => hall _ h other hother hcut.2⟩

theorem Names.spec (h : Names text s) : ['-', '-'] <+: text ∧ '=' ∉ text := by
  obtain ⟨name, hname, hcut, -⟩ := h
  exact ⟨hcut.1, fun hmem => (spec_of_mem_longNames hname).2.2 (hcut.2.subset hmem)⟩

/-- A name is a spelling of its switch, unless it is cut short. -/
theorem Names.ofSpelling? (h : Names text s) :
    Switch.ofSpelling? (String.ofList text) = some s ∨
      Switch.ofSpelling? (String.ofList text) = none := by
  obtain ⟨name, hname, hcut, hothers⟩ := h
  cases hx : Switch.ofSpelling? (String.ofList text) with
  | none => exact .inr rfl
  | some next =>
    refine .inl (congrArg some ?_)
    rcases cases_of_ofSpelling? hx with ⟨other, hlong, rfl⟩ | ⟨rfl, -⟩ | ⟨rfl, -⟩
    · obtain rfl : other = name :=
        hothers _ (List.mem_cons_of_mem _ (List.mem_map_of_mem hlong)) ⟨hcut.1, List.prefix_rfl⟩
      exact eq_of_mem_longNames hlong hname
    · exact absurd hcut.1 (by decide)
    · exact absurd hcut.1 (by decide)

theorem ofSpelling?_of_equals (h : '=' ∈ text) :
    Switch.ofSpelling? (String.ofList text) = none := by
  cases hx : Switch.ofSpelling? (String.ofList text) with
  | none => rfl
  | some s =>
    rcases cases_of_ofSpelling? hx with ⟨name, hlong, rfl⟩ | ⟨rfl, -⟩ | ⟨rfl, -⟩
    · exact absurd h (spec_of_mem_longNames hlong).2.2
    · exact absurd h (by decide)
    · exact absurd h (by decide)

/-- One dash and more than one letter are no spelling. -/
theorem ofSpelling?_letters {d : Char} (hc : c ≠ '-') :
    Switch.ofSpelling? (String.ofList ('-' :: c :: d :: rest)) = none := by
  cases hx : Switch.ofSpelling? (String.ofList ('-' :: c :: d :: rest)) with
  | none => rfl
  | some s =>
    rcases cases_of_ofSpelling? hx with ⟨name, hlong, hname⟩ | ⟨⟨⟩, -⟩ | ⟨⟨⟩, -⟩
    have hdashes := (spec_of_mem_longNames hlong).1
    rw [← hname] at hdashes
    exact absurd (List.cons_prefix_cons.1 (List.cons_prefix_cons.1 hdashes).2).1.symm hc

/-! ## Completions -/

theorem mem_completions_iff (hdashes : ['-', '-'] <+: text) :
    name ∈ completions text ↔ name ∈ "--help" :: longNames.map Prod.fst ∧ CutFrom text name := by
  have hall : ∀ s : Switch, s ∈ Switch.all := by
    intro s
    cases s <;> decide
  have hshort : ∀ letter : Char, letter ≠ '-' → ¬text <+: ['-', letter] := by
    intro letter hletter h
    have hdash := List.cons_prefix_cons.1 (List.cons_prefix_cons.1 (hdashes.trans h)).2
    exact hletter hdash.1.symm
  rw [completions, List.mem_filter, List.isPrefixOf_iff_prefix, List.mem_cons, List.mem_cons,
    List.mem_flatMap, List.mem_map]
  constructor
  · rintro ⟨rfl | ⟨s, -, hname⟩, hcut⟩
    · exact ⟨.inl rfl, hdashes, hcut⟩
    · rcases mem_spellings_iff.1 hname with hlong | ⟨rfl, -⟩ | ⟨rfl, -⟩
      · exact ⟨.inr ⟨_, hlong, rfl⟩, hdashes, hcut⟩
      · exact absurd hcut (hshort 'o' (by decide))
      · exact absurd hcut (hshort 'v' (by decide))
  · rintro ⟨rfl | ⟨⟨_, s⟩, hlong, rfl⟩, hcut⟩
    · exact ⟨.inl rfl, hcut.2⟩
    · exact ⟨.inr ⟨s, hall s, mem_spellings_of_mem_longNames hlong⟩, hcut.2⟩

/-- The one completion of a text is the name that the text is cut from. -/
theorem names_of_completions (hdashes : ['-', '-'] <+: text) (h : completions text = [name])
    (hname : Switch.ofSpelling? name = some s) : Names text s := by
  obtain ⟨hmem, hcut⟩ := (mem_completions_iff hdashes).1 (h ▸ List.mem_singleton_self name)
  refine ⟨name, ?_, hcut, fun other hother hcut' => ?_⟩
  · rcases List.mem_cons.1 hmem with rfl | hmem
    · cases hname
    · obtain ⟨⟨_, next⟩, hlong, rfl⟩ := List.mem_map.1 hmem
      have hnext := ofSpelling?_eq_some_iff.2 (mem_spellings_of_mem_longNames hlong)
      cases hnext.symm.trans hname
      exact hlong
  · rw [← List.mem_singleton, ← h]
    exact (mem_completions_iff hdashes).2 ⟨hother, hcut'⟩

/-- No spelling is among the completions twice. -/
theorem completions_eq (h : ∀ other ∈ completions text, other = name) :
    completions text = [] ∨ completions text = [name] := by
  have hnodup : (completions text).Nodup := by
    have hall : ("--help" :: Switch.all.flatMap Switch.spellings).Nodup := by decide
    exact hall.filter _
  rw [List.eq_replicate_of_mem h, List.nodup_replicate, Nat.le_one_iff_eq_zero_or_eq_one] at hnodup
  rw [List.eq_replicate_of_mem h]
  exact hnodup.imp (fun hlength => by rw [hlength]; rfl) fun hlength => by rw [hlength]; rfl

theorem completions_of_names (h : Names text s) :
    ∃ name, completions text = [name] ∧ (name, s) ∈ longNames := by
  obtain ⟨name, hname, hcut, hothers⟩ := h
  have hmem : name ∈ completions text := (mem_completions_iff hcut.1).2
    ⟨List.mem_cons_of_mem _ (List.mem_map_of_mem hname), hcut⟩
  have hsingle : ∀ other ∈ completions text, other = name := fun other hother =>
    hothers other ((mem_completions_iff hcut.1).1 hother).1 ((mem_completions_iff hcut.1).1 hother).2
  exact ⟨name, (completions_eq hsingle).resolve_left (List.ne_nil_of_mem hmem), hname⟩

/-! ## Equals signs -/

theorem cut_self (h : '=' ∉ text) :
    text.takeWhile (· ≠ '=') = text ∧ text.dropWhile (· ≠ '=') = [] := by
  have hne : ∀ c ∈ text, decide (c ≠ '=') = true := fun c hc =>
    decide_eq_true fun heq => h (heq ▸ hc)
  exact ⟨List.takeWhile_eq_self_iff.2 hne, List.dropWhile_eq_nil_iff.2 hne⟩

theorem cut_append (h : '=' ∉ text) (value : List Char) :
    (text ++ '=' :: value).takeWhile (· ≠ '=') = text ∧
      (text ++ '=' :: value).dropWhile (· ≠ '=') = '=' :: value := by
  have hne : ∀ c ∈ text, decide (c ≠ '=') = true := fun c hc =>
    decide_eq_true fun heq => h (heq ▸ hc)
  constructor
  · rw [List.takeWhile_append_of_pos hne]
    simp
  · rw [List.dropWhile_append_of_pos hne]
    simp

theorem splitEquals?_self (h : '=' ∉ text) (hx : Switch.ofSpelling? (String.ofList text) = none) :
    splitEquals? text = none := by
  simp only [splitEquals?, (cut_self h).1, hx, Option.map_none]

theorem splitEquals?_append (h : '=' ∉ text) (value : List Char) :
    splitEquals? (text ++ '=' :: value) =
      (Switch.ofSpelling? (String.ofList text)).map fun s => (s, value) := by
  simp only [splitEquals?, (cut_append h value).1]
  simp

/-- What is before the equals sign is a name. -/
theorem exists_of_splitEquals? (hx : Switch.ofSpelling? (String.ofList text) = none)
    (h : splitEquals? text = some (s, value)) : ∃ part, text = part ++ '=' :: value ∧
      '=' ∉ part ∧ Switch.ofSpelling? (String.ofList part) = some s := by
  by_cases hmem : '=' ∈ text
  · obtain ⟨part, value', rfl, hpart⟩ := List.eq_append_cons_of_mem hmem
    rw [splitEquals?_append hpart] at h
    obtain ⟨_, hs, hpair⟩ := Option.map_eq_some_iff.1 h
    cases hpair
    exact ⟨part, rfl, hpart, hs⟩
  · rw [splitEquals?_self hmem hx] at h
    cases h

/-! ## Letters -/

theorem two_le_length (h : Switch.ofSpelling? (String.ofList text) = some s) : 2 ≤ text.length := by
  rcases cases_of_ofSpelling? h with ⟨name, hlong, rfl⟩ | ⟨rfl, -⟩ | ⟨rfl, -⟩
  · exact (spec_of_mem_longNames hlong).2.1.le
  · exact le_rfl
  · exact le_rfl

theorem splitShort?_eq_some_iff : splitShort? text = some (s, value) ↔
    text = '-' :: 'o' :: value ∧ s = .output ∨ text = '-' :: 'v' :: value ∧ s = .verbose := by
  constructor
  · intro h
    obtain ⟨_, hs, hpair⟩ := Option.map_eq_some_iff.1 h
    cases hpair
    rcases text with _ | ⟨c, _ | ⟨d, rest⟩⟩
    · exact absurd (two_le_length hs) (by simp)
    · exact absurd (two_le_length hs) (by simp)
    · obtain ⟨rfl, ⟨rfl, rfl⟩ | ⟨rfl, rfl⟩⟩ := ofSpelling?_pair hs
      · exact .inl ⟨rfl, rfl⟩
      · exact .inr ⟨rfl, rfl⟩
  · rintro (⟨rfl, rfl⟩ | ⟨rfl, rfl⟩) <;> rfl

theorem letters_of_attachShort_output (rest : List Char) :
    Letters ('o' :: rest) (attachShort .output rest) := by
  cases rest with
  | nil => exact .output
  | cons c rest => exact .outputValue (List.cons_ne_nil c rest)

theorem letters_of_attachShort_verbose (h : ∀ w ∈ attachShort .verbose rest, w.Usable) :
    Letters ('v' :: rest) (attachShort .verbose rest) := by
  induction rest with
  | nil => exact .verbose
  | cons c rest ih =>
    rw [attachShort, if_neg (by decide)] at h ⊢
    cases hc : Switch.ofSpelling? (String.ofList ['-', c]) with
    | none =>
      rw [hc] at h
      exact absurd (h _ List.mem_cons_self) id
    | some next =>
      rw [hc] at h
      obtain ⟨-, ⟨rfl, rfl⟩ | ⟨rfl, rfl⟩⟩ := ofSpelling?_pair hc
      · exact .more (letters_of_attachShort_output rest)
      · exact .more (ih (List.forall_mem_cons.1 h).2)

theorem Letters.attachShort_eq {cs : List Char} (h : Letters cs ws) :
    (∃ rest, cs = 'o' :: rest ∧ attachShort .output rest = ws) ∨
      ∃ rest, cs = 'v' :: rest ∧ attachShort .verbose rest = ws := by
  induction h with
  | output => exact .inl ⟨[], rfl, rfl⟩
  | @outputValue value hvalue =>
    obtain ⟨c, rest, rfl⟩ := List.exists_cons_of_ne_nil hvalue
    exact .inl ⟨c :: rest, rfl, rfl⟩
  | verbose => exact .inr ⟨[], rfl, rfl⟩
  | @more rest ws _ ih =>
    refine .inr ⟨rest, rfl, ?_⟩
    rcases ih with ⟨behind, rfl, rfl⟩ | ⟨behind, rfl, rfl⟩ <;> rfl

/-! ## Numbers -/

theorem getLast?_decimalRun {digits : List Char} (h : isDecimalRun digits = true)
    (before : List Char) : (before ++ digits).getLast? ≠ some '\n' := by
  rw [isDecimalRun, Bool.and_eq_true, Bool.not_eq_true', List.isEmpty_eq_false_iff,
    List.all_eq_true] at h
  intro hlast
  rw [List.getLast?_append_of_ne_nil _ h.1] at hlast
  exact absurd (h.2 _ (List.mem_of_getLast? hlast)) (by decide)

theorem NegativeNumber.getLast?_ne (h : NegativeNumber text) : text.getLast? ≠ some '\n' := by
  cases h with
  | whole h => exact getLast?_decimalRun h ['-']
  | @point digits fraction _ hfraction =>
    have heq : '-' :: (digits ++ '.' :: fraction) = ('-' :: digits ++ ['.']) ++ fraction := by simp
    rw [heq]
    exact getLast?_decimalRun hfraction _

/-- A text that may end with a line feed is a number if what is before it is one. -/
theorem negativeNumber_withoutFinalLineFeed_iff : NegativeNumber (withoutFinalLineFeed text) ↔
    NegativeNumber text ∨ ∃ number, text = number ++ ['\n'] ∧ NegativeNumber number := by
  unfold withoutFinalLineFeed
  split
  · next hlast =>
    obtain ⟨number, rfl⟩ := List.getLast?_eq_some_iff.1 hlast
    rw [List.dropLast_concat]
    constructor
    · exact fun h => .inr ⟨number, rfl, h⟩
    · rintro (h | ⟨_, heq, h⟩)
      · exact absurd hlast h.getLast?_ne
      · rwa [List.append_cancel_right heq]
  · next hlast =>
    constructor
    · exact .inl
    · rintro (h | ⟨_, rfl, -⟩)
      · exact h
      · exact absurd List.getLast?_concat hlast

theorem isNegativeNumber_iff : isNegativeNumber text = true ↔
    NegativeNumber text ∨ ∃ number, text = number ++ ['\n'] ∧ NegativeNumber number := by
  rw [← negativeNumber_withoutFinalLineFeed_iff, isNegativeNumber]
  generalize withoutFinalLineFeed text = number
  split
  · next body =>
    rw [Bool.or_eq_true]
    constructor
    · rintro (h | h)
      · exact .whole h
      · split at h
        · next digits fraction hsplit =>
          rw [Bool.and_eq_true, List.all_eq_true] at h
          rw [eq_append_of_splitOn hsplit]
          exact .point h.1 h.2
        · cases h
    · intro h
      cases h with
      | whole h => exact .inl h
      | @point digits fraction hdigits hfraction =>
        have hpoint : ∀ {run : List Char}, (∀ c ∈ run, isDecimalDigit c = true) → '.' ∉ run :=
          fun hrun hmem => absurd (hrun _ hmem) (by decide)
        have hall := hfraction
        rw [isDecimalRun, Bool.and_eq_true, List.all_eq_true] at hall
        rw [List.splitOn_append_cons_self_of_not_mem (hpoint hdigits),
          List.splitOn_eq_singleton (hpoint hall.2)]
        refine .inr ?_
        simp only [Bool.and_eq_true, List.all_eq_true]
        exact ⟨hdigits, hfraction⟩
  · next hno =>
    constructor
    · exact fun h => absurd h (by decide)
    · intro h
      cases h with
      | whole => exact (hno _ rfl).elim
      | point => exact (hno _ rfl).elim

end

end TapeCompiler.CommandLine
