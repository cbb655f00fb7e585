import TapeCompiler.Proofs.CommandLine.Rules
import TapeCompiler.Proofs.Except
/-!
# Sorted arguments

Sorting arguments finds the words that the rules give, and refuses an argument for which there are
none (`sortArguments_iff`). Of an argument by itself this is shown in both directions: words that are
found are given by a rule (`gives_of_wordsOf`), and each rule is found (`wordsOf_of_gives`).
-/
namespace TapeCompiler.CommandLine

section

variable {s : Switch} {c : Char} {text rest value : List Char} {ws : List Word}

/-! ## Words that are found -/

theorem isShort_iff (hdash : text.head? = some '-') : isShort text = false ↔ ['-', '-'] <+: text := by
  rcases text with _ | ⟨c, rest⟩
  · cases hdash
  obtain rfl : c = '-' := Option.some.inj hdash
  rw [isShort, decide_eq_false_iff_not, not_not, List.tail_cons, List.cons_prefix_cons,
    and_iff_right rfl]
  rcases rest with _ | ⟨d, rest⟩
  · simp
  · simp [eq_comm]

theorem head?_of_dashes (hdashes : ['-', '-'] <+: text) :
    text.head? = some '-' ∧ text ≠ ['-'] := by
  obtain ⟨rest, rfl⟩ := hdashes
  simp

theorem not_beginsSwitch (hshort : splitShort? text = none)
    (hlong : ∀ name ∈ longNames.map Prod.fst, ¬CutFrom (text.takeWhile (· ≠ '=')) name) :
    ¬BeginsSwitch text := by
  rintro (⟨value, rfl⟩ | ⟨value, rfl⟩ | ⟨name, hname, hcut⟩)
  · cases hshort.symm.trans (splitShort?_eq_some_iff.2 (.inl ⟨rfl, rfl⟩))
  · cases hshort.symm.trans (splitShort?_eq_some_iff.2 (.inr ⟨rfl, rfl⟩))
  · exact hlong name hname hcut

theorem gives_otherWord (hdash : text.head? = some '-') (hne : text ≠ ['-'])
    (hswitch : ¬BeginsSwitch text) (h : (otherWord text).Usable) :
    Gives text [otherWord text] := by
  unfold otherWord at h ⊢
  split at h
  · next hother =>
    rw [if_pos hother]
    rw [Bool.or_eq_true, isNegativeNumber_iff, decide_eq_true_iff] at hother
    exact .noSwitch hdash hne hswitch hother.symm
  · exact absurd h id

theorem otherWord_eq (h : ' ' ∈ text ∨ NegativeNumber text ∨
    ∃ number, text = number ++ ['\n'] ∧ NegativeNumber number) :
    otherWord text = .plain (String.ofList text) := by
  rw [otherWord, if_pos]
  rw [Bool.or_eq_true, isNegativeNumber_iff, decide_eq_true_iff]
  exact h.symm

/-- A name with a value attached gives it to a switch that has one. -/
theorem usable_attachEquals (h : ∀ w ∈ attachEquals s false value, w.Usable) :
    s.Valued ∧ attachEquals s false value = [.valued s (valueOf value)] := by
  unfold attachEquals at h ⊢
  by_cases hs : s.takesValue = true
  · rw [if_pos hs]
    exact ⟨takesValue_iff.1 hs, rfl⟩
  · rw [if_neg hs] at h
    exact absurd (h _ List.mem_cons_self) id

theorem gives_of_completedWords (hnames : Names (text.takeWhile (· ≠ '=')) s)
    (hws : ∀ w ∈ completedWords s text, w.Usable) : Gives text (completedWords s text) := by
  by_cases hequals : '=' ∈ text
  · obtain ⟨part, value, rfl, hno⟩ := List.eq_append_cons_of_mem hequals
    rw [(cut_append hno value).1] at hnames
    rw [completedWords, (cut_append hno value).2] at hws ⊢
    obtain ⟨hs, heq⟩ := usable_attachEquals hws
    simp only [heq]
    exact .nameValue hnames hs value
  · rw [(cut_self hequals).1] at hnames
    rw [completedWords, (cut_self hequals).2]
    exact .name hnames

theorem gives_of_completeWords (hdashes : ['-', '-'] <+: text) (hshort : splitShort? text = none)
    (h : completeWords text = .ok ws) (hws : ∀ w ∈ ws, w.Usable) : Gives text ws := by
  have hpart : ['-', '-'] <+: text.takeWhile (· ≠ '=') := by
    obtain ⟨rest, rfl⟩ := hdashes
    simp
  have hother : (∀ name ∈ longNames.map Prod.fst, name ∉ completions (text.takeWhile (· ≠ '='))) →
      ws = [otherWord text] → Gives text ws := by
    rintro hnone rfl
    obtain ⟨hdash, hne⟩ := head?_of_dashes hdashes
    refine gives_otherWord hdash hne (not_beginsSwitch hshort fun name hname hcut => ?_)
      (hws _ List.mem_cons_self)
    exact hnone name hname ((mem_completions_iff hpart).2 ⟨List.mem_cons_of_mem _ hname, hcut⟩)
  unfold completeWords at h
  split at h
  · next hnil =>
    cases h
    refine hother (fun name _ hmem => ?_) rfl
    rw [hnil] at hmem
    cases hmem
  · next spelling hsingle =>
    cases hspelling : Switch.ofSpelling? spelling with
    | none =>
      rw [hspelling] at h
      cases h
      refine hother (fun name hname hmem => ?_) rfl
      rw [hsingle, List.mem_singleton] at hmem
      obtain ⟨⟨_, next⟩, hlong, rfl⟩ := List.mem_map.1 hname
      have hnext := ofSpelling?_eq_some_iff.2 (mem_spellings_of_mem_longNames hlong)
      rw [← hmem, hnext] at hspelling
      cases hspelling
    | some s =>
      rw [hspelling] at h
      cases h
      exact gives_of_completedWords (names_of_completions hpart hsingle hspelling) hws
  · cases h

theorem gives_of_ofSpelling? (hx : Switch.ofSpelling? (String.ofList text) = some s) :
    Gives text [.switch s] := by
  rcases cases_of_ofSpelling? hx with ⟨name, hlong, rfl⟩ | ⟨rfl, rfl⟩ | ⟨rfl, rfl⟩
  · exact .name (names_of_mem_longNames hlong)
  · exact .letters .output (by decide)
  · exact .letters .verbose (by decide)

theorem gives_of_splitEquals? (hdash : text.head? = some '-')
    (hx : Switch.ofSpelling? (String.ofList text) = none)
    (hequals : splitEquals? text = some (s, value))
    (hws : ∀ w ∈ attachEquals s (isShort text) value, w.Usable) :
    Gives text (attachEquals s (isShort text) value) := by
  obtain ⟨part, rfl, -, hpart⟩ := exists_of_splitEquals? hx hequals
  rcases cases_of_ofSpelling? hpart with ⟨name, hlong, rfl⟩ | ⟨rfl, rfl⟩ | ⟨rfl, rfl⟩
  · have hnames := names_of_mem_longNames hlong
    have hlongText : isShort (name.toList ++ '=' :: value) = false :=
      (isShort_iff hdash).2 (hnames.spec.1.trans (List.prefix_append _ _))
    rw [hlongText] at hws ⊢
    obtain ⟨hs, heq⟩ := usable_attachEquals hws
    rw [heq]
    exact .nameValue hnames hs value
  · exact .outputEquals value
  · cases value with
    | nil => exact absurd (hws _ List.mem_cons_self) id
    | cons c rest =>
      exact .verboseEquals (letters_of_attachShort_verbose hws) (List.cons_ne_nil c rest)

theorem gives_of_splitShort? (hequals : splitEquals? text = none)
    (hshort : splitShort? text = some (s, value)) (hws : ∀ w ∈ attachShort s value, w.Usable) :
    Gives text (attachShort s value) := by
  rcases splitShort?_eq_some_iff.1 hshort with ⟨rfl, rfl⟩ | ⟨rfl, rfl⟩
  · refine .letters (letters_of_attachShort_output value) ?_
    rintro ⟨rest, heq⟩
    obtain rfl : '=' :: rest = value := (List.cons.inj heq).2
    have hsplit : splitEquals? (['-', 'o'] ++ '=' :: rest) = some (.output, rest) :=
      splitEquals?_append (by decide) rest
    cases hequals.symm.trans hsplit
  · exact .letters (letters_of_attachShort_verbose hws) (by simp)

theorem gives_of_wordsOf (h : wordsOf (String.ofList text) = .ok ws)
    (hws : ∀ w ∈ ws, w.Usable) : Gives text ws := by
  unfold wordsOf at h
  simp only [String.toList_ofList] at h
  split at h
  · next hplain =>
    cases h
    exact .plain hplain
  next hdash =>
  rw [not_or, ne_eq, not_not] at hdash
  obtain ⟨hdash, hne⟩ := hdash
  cases hx : Switch.ofSpelling? (String.ofList text) with
  | some s =>
    rw [hx] at h
    cases h
    exact gives_of_ofSpelling? hx
  | none =>
    rw [hx] at h
    cases hequals : splitEquals? text with
    | some found =>
      rw [hequals] at h
      cases h
      exact gives_of_splitEquals? hdash hx hequals hws
    | none =>
      rw [hequals] at h
      cases hshort : splitShort? text with
      | some found =>
        rw [hshort] at h
        cases h
        exact gives_of_splitShort? hequals hshort hws
      | none =>
        rw [hshort] at h
        cases hlong : isShort text with
        | false =>
          rw [hlong] at h
          exact gives_of_completeWords ((isShort_iff hdash).1 hlong) hshort h hws
        | true =>
          rw [hlong] at h
          cases h
          refine gives_otherWord hdash hne (not_beginsSwitch hshort fun name _ hcut => ?_)
            (hws _ List.mem_cons_self)
          have hdashes := hcut.1.trans (List.takeWhile_prefix _)
          cases hlong.symm.trans ((isShort_iff hdash).2 hdashes)

/-! ## What the rules give -/

section

variable (hdash : text.head? = some '-') (hne : text ≠ ['-'])

include hdash hne

theorem wordsOf_of_ofSpelling? (hx : Switch.ofSpelling? (String.ofList text) = some s) :
    wordsOf (String.ofList text) = .ok [.switch s] := by
  simp only [wordsOf, String.toList_ofList, hdash, hne, hx, ne_eq, not_true_eq_false, or_self,
    if_false]

theorem wordsOf_of_splitEquals? (hx : Switch.ofSpelling? (String.ofList text) = none)
    (h : splitEquals? text = some (s, value)) :
    wordsOf (String.ofList text) = .ok (attachEquals s (isShort text) value) := by
  simp only [wordsOf, String.toList_ofList, hdash, hne, hx, h, ne_eq, not_true_eq_false, or_self,
    if_false]

theorem wordsOf_of_splitShort? (hx : Switch.ofSpelling? (String.ofList text) = none)
    (hequals : splitEquals? text = none) (h : splitShort? text = some (s, value)) :
    wordsOf (String.ofList text) = .ok (attachShort s value) := by
  simp only [wordsOf, String.toList_ofList, hdash, hne, hx, hequals, h, ne_eq, not_true_eq_false,
    or_self, if_false]

theorem wordsOf_of_splits (hx : Switch.ofSpelling? (String.ofList text) = none)
    (hequals : splitEquals? text = none) (hshort : splitShort? text = none) :
    wordsOf (String.ofList text) =
      if isShort text then .ok [otherWord text] else completeWords text := by
  simp only [wordsOf, String.toList_ofList, hdash, hne, hx, hequals, hshort, ne_eq,
    not_true_eq_false, or_self, if_false]

end

theorem splitShort?_of_dashes (hdashes : ['-', '-'] <+: text) : splitShort? text = none := by
  rw [Option.eq_none_iff_forall_ne_some]
  rintro ⟨s, value⟩ h
  rcases splitShort?_eq_some_iff.1 h with ⟨rfl, -⟩ | ⟨rfl, -⟩
  · simp at hdashes
  · simp at hdashes

/-- A text that no spelling but one goes on from is completed. -/
theorem completeWords_of_names {part : List Char} (hpart : text.takeWhile (· ≠ '=') = part)
    (h : Names part s) : completeWords text = .ok (completedWords s text) := by
  obtain ⟨name, hname, hlong⟩ := completions_of_names h
  simp only [completeWords, hpart, hname,
    ofSpelling?_eq_some_iff.2 (mem_spellings_of_mem_longNames hlong)]

theorem wordsOf_of_names (h : Names text s) : wordsOf (String.ofList text) = .ok [.switch s] := by
  obtain ⟨hdashes, hno⟩ := h.spec
  obtain ⟨hdash, hne⟩ := head?_of_dashes hdashes
  rcases h.ofSpelling? with hx | hx
  · exact wordsOf_of_ofSpelling? hdash hne hx
  · rw [wordsOf_of_splits hdash hne hx (splitEquals?_self hno hx) (splitShort?_of_dashes hdashes),
      (isShort_iff hdash).2 hdashes, if_neg Bool.false_ne_true,
      completeWords_of_names (cut_self hno).1 h, completedWords, (cut_self hno).2]

theorem attachEquals_of_valued (hs : s.Valued) (short : Bool) (value : List Char) :
    attachEquals s short value = [.valued s (valueOf value)] := by
  rw [attachEquals, if_pos (takesValue_iff.2 hs)]
  rfl

theorem wordsOf_of_nameValue (h : Names text s) (hs : s.Valued) (value : List Char) :
    wordsOf (String.ofList (text ++ '=' :: value)) = .ok [.valued s (valueOf value)] := by
  obtain ⟨hdashes, hno⟩ := h.spec
  have hdashes' := hdashes.trans (List.prefix_append text ('=' :: value))
  obtain ⟨hdash, hne⟩ := head?_of_dashes hdashes'
  have hx : Switch.ofSpelling? (String.ofList (text ++ '=' :: value)) = none :=
    ofSpelling?_of_equals (by simp)
  have hequals := splitEquals?_append hno value
  rcases h.ofSpelling? with hname | hname
  · rw [hname] at hequals
    rw [wordsOf_of_splitEquals? hdash hne hx hequals, attachEquals_of_valued hs]
  · rw [hname] at hequals
    rw [wordsOf_of_splits hdash hne hx hequals (splitShort?_of_dashes hdashes'),
      (isShort_iff hdash).2 hdashes', if_neg Bool.false_ne_true,
      completeWords_of_names (cut_append hno value).1 h, completedWords, (cut_append hno value).2]
    simp only
    rw [attachEquals_of_valued hs]

theorem wordsOf_short (hs : Switch.ofSpelling? (String.ofList ['-', c]) = some s) (hc : c ≠ '-')
    (hequals : c ≠ '=') (hrest : rest.head? ≠ some '=') :
    wordsOf (String.ofList ('-' :: c :: rest)) = .ok (attachShort s rest) := by
  have hne : '-' :: c :: rest ≠ ['-'] := by simp
  cases rest with
  | nil =>
    rw [wordsOf_of_ofSpelling? rfl hne hs]
    rfl
  | cons d rest =>
    have hd : d ≠ '=' := fun h => hrest (congrArg some h)
    have hpart : ('-' :: c :: d :: rest).takeWhile (· ≠ '=') =
        '-' :: c :: d :: rest.takeWhile (· ≠ '=') := by
      simp [hequals, hd]
    have hno : splitEquals? ('-' :: c :: d :: rest) = none := by
      simp only [splitEquals?, hpart, ofSpelling?_letters hc, Option.map_none]
    have hshort : splitShort? ('-' :: c :: d :: rest) = some (s, d :: rest) :=
      Option.map_eq_some_iff.2 ⟨s, hs, rfl⟩
    exact wordsOf_of_splitShort? rfl hne (ofSpelling?_letters hc) hno hshort

/-- No equals sign is behind the letter of a switch without a value. -/
theorem Letters.head?_ne (h : Letters ('v' :: rest) ws) : rest.head? ≠ some '=' := by
  generalize hcs : 'v' :: rest = cs at h
  cases h with
  | output | outputValue | verbose => cases hcs <;> simp
  | more h =>
    cases hcs
    cases h <;> simp

theorem wordsOf_of_letters {cs : List Char} (h : Letters cs ws) (hequals : ¬['o', '='] <+: cs) :
    wordsOf (String.ofList ('-' :: cs)) = .ok ws := by
  rcases h.attachShort_eq with ⟨rest, rfl, rfl⟩ | ⟨rest, rfl, rfl⟩
  · refine wordsOf_short rfl (by decide) (by decide) fun hrest => hequals ?_
    obtain ⟨value, rfl⟩ := List.head?_eq_some_iff.1 hrest
    exact ⟨value, rfl⟩
  · exact wordsOf_short rfl (by decide) (by decide) h.head?_ne

theorem wordsOf_of_equals {short : List Char} (hs : Switch.ofSpelling? (String.ofList short) = some s)
    (hdash : short.head? = some '-') (hno : '=' ∉ short) (value : List Char) :
    wordsOf (String.ofList (short ++ '=' :: value)) =
      .ok (attachEquals s (isShort (short ++ '=' :: value)) value) := by
  have hdash' : (short ++ '=' :: value).head? = some '-' := by
    rw [List.head?_append, hdash]
    rfl
  have hne : short ++ '=' :: value ≠ ['-'] := by
    intro heq
    have hmem : '=' ∈ ['-'] := heq ▸ List.mem_append_right short List.mem_cons_self
    exact absurd hmem (by decide)
  refine wordsOf_of_splitEquals? hdash' hne (ofSpelling?_of_equals (by simp)) ?_
  rw [splitEquals?_append hno, hs]
  rfl

/-- What is before an equals sign, or the whole text, would be cut from itself. -/
theorem ofSpelling?_of_not_beginsSwitch (hswitch : ¬BeginsSwitch text) :
    Switch.ofSpelling? (String.ofList (text.takeWhile (· ≠ '='))) = none := by
  have hbegins : text.takeWhile (· ≠ '=') <+: text := List.takeWhile_prefix _
  cases hx : Switch.ofSpelling? (String.ofList (text.takeWhile (· ≠ '='))) with
  | none => rfl
  | some s =>
    rcases cases_of_ofSpelling? hx with ⟨name, hlong, hpart⟩ | ⟨hpart, -⟩ | ⟨hpart, -⟩
    · have hcut : CutFrom (text.takeWhile (· ≠ '=')) name := by
        rw [hpart]
        exact ⟨(spec_of_mem_longNames hlong).1, List.prefix_rfl⟩
      exact absurd (.inr (.inr ⟨name, List.mem_map_of_mem hlong, hcut⟩)) hswitch
    · exact absurd (.inl (hpart ▸ hbegins)) hswitch
    · exact absurd (.inr (.inl (hpart ▸ hbegins))) hswitch

theorem wordsOf_of_not_beginsSwitch (hdash : text.head? = some '-') (hne : text ≠ ['-'])
    (hswitch : ¬BeginsSwitch text) : wordsOf (String.ofList text) = .ok [otherWord text] := by
  have hspelling := ofSpelling?_of_not_beginsSwitch hswitch
  have hx : Switch.ofSpelling? (String.ofList text) = none := by
    by_cases hequals : '=' ∈ text
    · exact ofSpelling?_of_equals hequals
    · rwa [(cut_self hequals).1] at hspelling
  have hsplit : splitEquals? text = none := by
    simp only [splitEquals?, hspelling, Option.map_none]
  have hshort : splitShort? text = none := by
    rw [Option.eq_none_iff_forall_ne_some]
    rintro ⟨s, value⟩ h
    rcases splitShort?_eq_some_iff.1 h with ⟨rfl, -⟩ | ⟨rfl, -⟩
    · exact hswitch (.inl ⟨value, rfl⟩)
    · exact hswitch (.inr (.inl ⟨value, rfl⟩))
  rw [wordsOf_of_splits hdash hne hx hsplit hshort]
  cases hlong : isShort text with
  | true => rfl
  | false =>
    have hdashes : ['-', '-'] <+: text.takeWhile (· ≠ '=') := by
      obtain ⟨rest, rfl⟩ := (isShort_iff hdash).1 hlong
      simp
    have hhelp : ∀ name ∈ completions (text.takeWhile (· ≠ '=')), name = "--help" := by
      intro name hname
      obtain ⟨hmem, hcut⟩ := (mem_completions_iff hdashes).1 hname
      exact (List.mem_cons.1 hmem).resolve_right fun hmem =>
        hswitch (.inr (.inr ⟨name, hmem, hcut⟩))
    rw [if_neg Bool.false_ne_true, completeWords]
    rcases completions_eq hhelp with hlist | hlist
    · rw [hlist]
    · rw [hlist]
      rfl

theorem wordsOf_of_gives (h : Gives text ws) : wordsOf (String.ofList text) = .ok ws := by
  cases h with
  | plain h =>
    simp only [wordsOf, String.toList_ofList]
    rw [if_pos h]
  | name h => exact wordsOf_of_names h
  | nameValue h hs value => exact wordsOf_of_nameValue h hs value
  | letters h hequals => exact wordsOf_of_letters h hequals
  | outputEquals value =>
    have hs : Switch.ofSpelling? (String.ofList ['-', 'o']) = some .output := rfl
    exact wordsOf_of_equals hs rfl (by decide) value
  | @verboseEquals cs ws h hcs =>
    have hs : Switch.ofSpelling? (String.ofList ['-', 'v']) = some .verbose := rfl
    have heq := wordsOf_of_equals hs rfl (by decide) cs
    refine heq.trans (congrArg Except.ok ?_)
    obtain ⟨c, rest, rfl⟩ := List.exists_cons_of_ne_nil hcs
    rcases h.attachShort_eq with ⟨_, hcons, -⟩ | ⟨_, hcons, hwords⟩
    · cases hcons
    · cases hcons
      exact hwords
  | noSwitch hdash hne hswitch h =>
    rw [wordsOf_of_not_beginsSwitch hdash hne hswitch, otherWord_eq h]

/-- Switches with a value attached are such as have one. -/
def Word.Sound (w : Word) : Prop := w.Usable ∧ ∀ s value, w = .valued s value → s.Valued

theorem sound_plain (argument : String) : (Word.plain argument).Sound := ⟨trivial, nofun⟩

theorem sound_switch (s : Switch) : (Word.switch s).Sound := ⟨trivial, nofun⟩

theorem sound_valued (hs : s.Valued) (value : Option String) : (Word.valued s value).Sound :=
  ⟨trivial, fun _ _ h => (Word.valued.inj h).1 ▸ hs⟩

theorem Letters.sound {cs : List Char} (h : Letters cs ws) : ∀ w ∈ ws, w.Sound := by
  induction h with
  | output | verbose => exact List.forall_mem_singleton.2 (sound_switch _)
  | outputValue => exact List.forall_mem_singleton.2 (sound_valued (.inl rfl) _)
  | more _ ih => exact List.forall_mem_cons.2 ⟨sound_switch _, ih⟩

theorem Gives.sound (h : Gives text ws) : ∀ w ∈ ws, w.Sound := by
  cases h with
  | plain | noSwitch => exact List.forall_mem_singleton.2 (sound_plain _)
  | name => exact List.forall_mem_singleton.2 (sound_switch _)
  | nameValue _ hs => exact List.forall_mem_singleton.2 (sound_valued hs _)
  | letters h | verboseEquals h => exact h.sound
  | outputEquals => exact List.forall_mem_singleton.2 (sound_valued (.inl rfl) _)

theorem GivesAll.sound {arguments : List String} (h : GivesAll arguments ws) :
    ∀ w ∈ ws, w.Sound := by
  induction h with
  | nil => exact List.forall_mem_nil _
  | separator rest =>
    exact List.forall_mem_cons.2
      ⟨⟨trivial, nofun⟩, List.forall_mem_map.2 fun argument _ => sound_plain argument⟩
  | cons _ h _ ih => exact List.forall_mem_append.2 ⟨h.sound, ih⟩

/-- **Arguments are sorted by the rules.** They are sorted into words that a request may be made of
exactly if these are the words that the rules give. -/
theorem sortArguments_iff {arguments : List String} :
    sortArguments arguments = .ok ws ∧ (∀ w ∈ ws, w.Usable) ↔ GivesAll arguments ws := by
  constructor
  · rintro ⟨h, hws⟩
    induction arguments generalizing ws with
    | nil =>
      cases h
      exact .nil
    | cons argument rest ih =>
      rw [sortArguments] at h
      split at h
      · next heq =>
        cases h
        subst heq
        exact .separator rest
      · next hne =>
        obtain ⟨first, hfirst, h⟩ := bind_eq_ok.1 h
        obtain ⟨others, hothers, h⟩ := bind_eq_ok.1 h
        cases h
        rw [List.forall_mem_append] at hws
        rw [← String.ofList_toList (s := argument)] at hfirst
        exact .cons hne (gives_of_wordsOf hfirst hws.1) (ih hothers hws.2)
  · intro h
    refine ⟨?_, fun w hw => (h.sound w hw).1⟩
    induction h with
    | nil => rfl
    | separator rest => rfl
    | @cons argument rest ws others hne h _ ih =>
      have hfirst := wordsOf_of_gives h
      rw [String.ofList_toList] at hfirst
      rw [sortArguments, if_neg hne, hfirst, ih]
      rfl

end

end TapeCompiler.CommandLine
