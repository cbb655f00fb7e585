import Mathlib.Data.List.Induction
import TapeCompiler.Proofs.CommandLine.Words
/-!
# What arguments ask for

Words are used in their order: for the source, for a switch, or for a switch and its value. Arguments
ask for a request if their words can all be used, one of them for the source, and the uses make up
the request: a switch is on if it is given anywhere, and of the values of a switch the last one counts.
These are the requests that are read from arguments (`readArguments_eq_ok_iff`).
-/
namespace TapeCompiler.CommandLine

/-! ## Uses -/

/-- What words are used for. -/
inductive Use where
  | source (path : String)
  | flag (s : Switch)
  /-- A switch with its value, none when the value is no value. -/
  | value (s : Switch) (value : Option String)
  deriving DecidableEq, Repr

/-- The uses of words. Two dashes may stand beside the source, and nowhere else. -/
inductive Uses : List Word → List Use → Prop
  | nil : Uses [] []
  | flag {s : Switch} {ws : List Word} {us : List Use} (hs : ¬s.Valued) (h : Uses ws us) :
    Uses (.switch s :: ws) (.flag s :: us)
  | value {s : Switch} {text : String} {ws : List Word} {us : List Use} (hs : s.Valued)
    (h : Uses ws us) : Uses (.switch s :: .plain text :: ws) (.value s (some text) :: us)
  | attached {s : Switch} {text : Option String} {ws : List Word} {us : List Use} (hs : s.Valued)
    (h : Uses ws us) : Uses (.valued s text :: ws) (.value s text :: us)
  | source {path : String} {ws : List Word} {us : List Use} (h : Uses ws us) :
    Uses (.plain path :: ws) (.source path :: us)
  | sourceSeparator {path : String} {ws : List Word} {us : List Use} (h : Uses ws us) :
    Uses (.plain path :: .separator :: ws) (.source path :: us)
  | separatorSource {path : String} {ws : List Word} {us : List Use} (h : Uses ws us) :
    Uses (.separator :: .plain path :: ws) (.source path :: us)

/-- The source files that are named. -/
def sourcesOf (us : List Use) : List String :=
  us.filterMap fun
    | .source path => some path
    | _ => none

/-- The values that a switch is given. -/
def valuesOf (s : Switch) (us : List Use) : List (Option String) :=
  us.filterMap fun
    | .value other value => if other = s then some value else none
    | _ => none

/-- Whether a switch without a value is on in a request. -/
def Request.has (request : Request) : Switch → Bool
  | .assembly => request.assembly
  | .emitListing => request.emitListing
  | .annotate => request.annotate
  | .run => request.run
  | .verbose => request.verbose
  | .output | .input => false

/-- A request whose switches are set by uses of words. -/
structure SetBy (us : List Use) (request : Request) : Prop where
  /-- A file without a value is as good as none. -/
  output : request.output = ((valuesOf .output us).getLast?.getD none).getD ""
  input : request.input = (valuesOf .input us).getLast?.getD (some "")
  flags : ∀ s : Switch, ¬s.Valued → (request.has s = true ↔ .flag s ∈ us)

/-- A request that uses of words make up. -/
structure AskedBy (us : List Use) (request : Request) : Prop extends SetBy us request where
  source : sourcesOf us = [request.source]
  /-- A program that is run has no other result than its output. -/
  alone : request.run = true → request.output = "" ∧ request.emitListing = false

/-- Arguments that ask for a request. -/
def Asks (arguments : List String) (request : Request) : Prop :=
  ∃ ws us, GivesAll arguments ws ∧ Uses ws us ∧ AskedBy us request

section

variable {s other : Switch} {taken taken' : Taken} {ws : List Word} {us : List Use}
  {request : Request}

/-! ## Switches -/

namespace Taken

variable (taken : Taken) (s : Switch) (value : Option String)

@[simp] theorem set_source : (taken.set s value).source = taken.source := rfl

theorem set_output :
    (taken.set s value).request.output =
      if s = .output then value.getD "" else taken.request.output := by
  cases s <;> rfl

theorem set_input :
    (taken.set s value).request.input = if s = .input then value else taken.request.input := by
  cases s <;> rfl

/-- A switch without a value turns itself on, and no other one. -/
theorem set_has (hother : ¬other.Valued) :
    (taken.set s value).request.has other = (decide (s = other) || taken.request.has other) := by
  cases other with
  | output => exact absurd (.inl rfl) hother
  | input => exact absurd (.inr rfl) hother
  | _ => cases s <;> rfl

end Taken

/-! ## Words are used in their order -/

/-- What is taken when words are used. -/
def Taken.use (taken : Taken) : Use → Taken
  | .source path => { taken with source := some path }
  | .flag s => taken.set s none
  | .value s value => taken.set s value

/-- What could not be used stays unused. -/
theorem unused_prefix (h : takeWords taken ws = .ok taken') : taken.unused <+: taken'.unused := by
  fun_induction takeWords taken ws with
  | case1 =>
    cases h
    exact List.prefix_rfl
  | case3 | case6 => cases h
  | case2 _ _ _ _ _ ih | case4 _ _ _ _ ih | case5 _ _ _ _ ih => exact ih h
  | case8 _ _ _ _ ih | case9 _ _ _ _ _ ih | case11 _ _ _ _ ih => exact ih h
  | case7 _ _ _ ih | case10 _ _ _ _ _ ih | case12 _ _ _ ih =>
    exact (List.prefix_append _ _).trans (ih h)

theorem not_leave (argument : String) (hunused : taken'.unused = []) :
    takeWords (taken.leave argument) ws ≠ .ok taken' := by
  intro h
  have hprefix := unused_prefix h
  rw [hunused, List.prefix_nil] at hprefix
  exact absurd hprefix (by simp [Taken.leave])

theorem sourcesOf_source (path : String) (us : List Use) :
    sourcesOf (.source path :: us) = path :: sourcesOf us := rfl

/-- Words that are taken with nothing left over have been used, and the source at most once. -/
theorem exists_uses_of_takeWords (hsound : ∀ w ∈ ws, w.Sound)
    (h : takeWords taken ws = .ok taken') (hunused : taken'.unused = []) :
    ∃ us, Uses ws us ∧ us.foldl Taken.use taken = taken' ∧
      taken.source.toList ++ sourcesOf us = taken'.source.toList := by
  fun_induction takeWords taken ws with
  | case1 taken =>
    cases h
    exact ⟨[], .nil, rfl, List.append_nil _⟩
  | case3 | case6 => cases h
  | case7 | case10 | case12 => exact absurd h (not_leave _ hunused)
  | case2 taken s htakes text rest ih =>
    rw [List.forall_mem_cons, List.forall_mem_cons] at hsound
    obtain ⟨us, hus, hfold, hsource⟩ := ih hsound.2.2 h
    exact ⟨.value s (some text) :: us, .value (takesValue_iff.1 htakes) hus, hfold, hsource⟩
  | case4 taken s rest htakes ih =>
    rw [List.forall_mem_cons] at hsound
    obtain ⟨us, hus, hfold, hsource⟩ := ih hsound.2 h
    exact ⟨.flag s :: us, .flag (fun hs => htakes (takesValue_iff.2 hs)) hus, hfold, hsource⟩
  | case5 taken s value rest ih =>
    rw [List.forall_mem_cons] at hsound
    obtain ⟨us, hus, hfold, hsource⟩ := ih hsound.2 h
    exact ⟨.value s value :: us, .attached (hsound.1.2 s value rfl) hus, hfold, hsource⟩
  | case8 taken text rest hnone ih =>
    rw [List.forall_mem_cons, List.forall_mem_cons] at hsound
    obtain ⟨us, hus, hfold, hsource⟩ := ih hsound.2.2 h
    rw [hnone]
    exact ⟨.source text :: us, .sourceSeparator hus, hfold, hsource⟩
  | case9 taken text rest hseparator hnone ih =>
    rw [List.forall_mem_cons] at hsound
    obtain ⟨us, hus, hfold, hsource⟩ := ih hsound.2 h
    rw [hnone]
    exact ⟨.source text :: us, .source hus, hfold, hsource⟩
  | case11 taken text rest hnone ih =>
    rw [List.forall_mem_cons, List.forall_mem_cons] at hsound
    obtain ⟨us, hus, hfold, hsource⟩ := ih hsound.2.2 h
    rw [hnone]
    exact ⟨.source text :: us, .separatorSource hus, hfold, hsource⟩

theorem takeWords_source (hnone : taken.source = none) (text : String)
    (hfirst : ws.head? ≠ some .separator) :
    takeWords taken (.plain text :: ws) = takeWords { taken with source := some text } ws := by
  rw [takeWords.eq_def]
  simp only [hnone]
  split
  · exact absurd rfl hfirst
  · rfl
  · next heq => cases heq

/-- A second source is one too many. -/
theorem source_eq_none {path : String} {more : List String}
    (h : (taken.source.toList ++ path :: more).length ≤ 1) : taken.source = none ∧ more = [] := by
  cases hnone : taken.source with
  | none => simpa [hnone] using h
  | some other => simp [hnone] at h

theorem head?_ne_separator (h : Uses ws us) (hsource : sourcesOf us = []) :
    ws.head? ≠ some .separator := by
  cases h with
  | separatorSource => cases hsource
  | _ => simp

theorem takeWords_of_uses (h : Uses ws us)
    (hsource : (taken.source.toList ++ sourcesOf us).length ≤ 1) :
    takeWords taken ws = .ok (us.foldl Taken.use taken) := by
  induction h generalizing taken with
  | nil => rfl
  | flag hs _ ih =>
    rw [takeWords.eq_def]
    simp only [takesValue_iff, hs, if_false]
    exact ih hsource
  | value hs _ ih =>
    rw [takeWords.eq_def]
    simp only [takesValue_iff, hs, if_true]
    exact ih hsource
  | attached hs _ ih =>
    rw [takeWords.eq_def]
    exact ih hsource
  | source h ih =>
    rw [sourcesOf_source] at hsource
    obtain ⟨hnone, hmore⟩ := source_eq_none hsource
    rw [takeWords_source hnone _ (head?_ne_separator h hmore)]
    exact ih (by simp [hmore])
  | sourceSeparator _ ih | separatorSource _ ih =>
    rw [sourcesOf_source] at hsource
    obtain ⟨hnone, hmore⟩ := source_eq_none hsource
    rw [takeWords.eq_def]
    simp only [hnone]
    exact ih (by simp [hmore])

/-! ## What uses make up -/

theorem source_foldl (us : List Use) :
    (us.foldl Taken.use taken).source = (sourcesOf us).getLast?.or taken.source := by
  induction us using List.reverseRecOn with
  | nil => rfl
  | append_singleton us u ih =>
    rw [List.foldl_concat]
    cases u with
    | source path => simp [Taken.use, sourcesOf]
    | flag s => simpa [Taken.use, sourcesOf] using ih
    | value s value => simpa [Taken.use, sourcesOf] using ih

theorem unused_foldl (us : List Use) : (us.foldl Taken.use taken).unused = taken.unused := by
  induction us generalizing taken with
  | nil => rfl
  | cons u us ih =>
    rw [List.foldl_cons, ih]
    cases u <;> rfl

/-- A switch is used as a flag if it has no value, and with its value if it has one. -/
def Use.Proper : Use → Prop
  | .source _ => True
  | .flag s => ¬s.Valued
  | .value s _ => s.Valued

theorem Uses.proper (h : Uses ws us) : ∀ u ∈ us, u.Proper := by
  induction h with
  | nil => exact List.forall_mem_nil _
  | flag hs _ ih => exact List.forall_mem_cons.2 ⟨hs, ih⟩
  | value hs _ ih | attached hs _ ih => exact List.forall_mem_cons.2 ⟨hs, ih⟩
  | source _ ih | sourceSeparator _ ih | separatorSource _ ih =>
    exact List.forall_mem_cons.2 ⟨trivial, ih⟩

section

variable (s : Switch) (us : List Use)

theorem valuesOf_source (path : String) : valuesOf s (us ++ [.source path]) = valuesOf s us := by
  simp [valuesOf]

theorem valuesOf_flag (other : Switch) : valuesOf s (us ++ [.flag other]) = valuesOf s us := by
  simp [valuesOf]

theorem valuesOf_value (other : Switch) (value : Option String) :
    valuesOf s (us ++ [.value other value]) =
      if other = s then valuesOf s us ++ [value] else valuesOf s us := by
  by_cases h : other = s <;> simp [valuesOf, h]

end

theorem SetBy.start : SetBy [] Taken.start.request where
  output := rfl
  input := rfl
  flags s _ := by cases s <;> simp [Request.has, Taken.start]

/-- One more use sets its own switch. -/
theorem SetBy.use {u : Use} (h : SetBy us taken.request) (hu : u.Proper) :
    SetBy (us ++ [u]) (taken.use u).request := by
  cases u with
  | source path =>
    refine ⟨?_, ?_, fun s hs => ?_⟩
    · rw [valuesOf_source]
      exact h.output
    · rw [valuesOf_source]
      exact h.input
    · rw [List.mem_append, List.mem_singleton, or_iff_left (by simp)]
      exact h.flags s hs
  | flag s =>
    have hs : ¬s.Valued := hu
    refine ⟨?_, ?_, fun other hother => ?_⟩
    · rw [valuesOf_flag, Taken.use, Taken.set_output, if_neg fun heq => hs (.inl heq)]
      exact h.output
    · rw [valuesOf_flag, Taken.use, Taken.set_input, if_neg fun heq => hs (.inr heq)]
      exact h.input
    · rw [Taken.use, Taken.set_has _ _ _ hother, Bool.or_eq_true, decide_eq_true_iff,
        h.flags other hother, List.mem_append, List.mem_singleton, Use.flag.injEq, or_comm,
        eq_comm (a := s)]
  | value s value =>
    have hs : s.Valued := hu
    refine ⟨?_, ?_, fun other hother => ?_⟩
    · rw [valuesOf_value, Taken.use, Taken.set_output]
      by_cases heq : s = .output
      · simp [heq]
      · rw [if_neg heq, if_neg heq]
        exact h.output
    · rw [valuesOf_value, Taken.use, Taken.set_input]
      by_cases heq : s = .input
      · simp [heq]
      · rw [if_neg heq, if_neg heq]
        exact h.input
    · have hne : s ≠ other := fun heq => hother (heq ▸ hs)
      rw [Taken.use, Taken.set_has _ _ _ hother, decide_eq_false hne, Bool.false_or,
        List.mem_append, List.mem_singleton, or_iff_left (by simp)]
      exact h.flags other hother

theorem setBy_foldl (h : ∀ u ∈ us, u.Proper) :
    SetBy us (us.foldl Taken.use .start).request := by
  induction us using List.reverseRecOn with
  | nil => exact .start
  | append_singleton us u ih =>
    rw [List.forall_mem_append, List.forall_mem_singleton] at h
    rw [List.foldl_concat]
    exact (ih h.1).use h.2

/-- The source and the switches are all that there is to a request. -/
theorem SetBy.eq {request' : Request} (h : SetBy us request) (h' : SetBy us request')
    (hsource : request.source = request'.source) : request = request' := by
  have hhas : ∀ s : Switch, ¬s.Valued → request.has s = request'.has s := fun s hs =>
    Bool.eq_iff_iff.2 ((h.flags s hs).trans (h'.flags s hs).symm)
  have hno : ∀ s : Switch, s ≠ .output → s ≠ .input → ¬s.Valued := by
    rintro s houtput hinput (heq | heq)
    · exact houtput heq
    · exact hinput heq
  have houtput := h.output.trans h'.output.symm
  have hinput := h.input.trans h'.input.symm
  have hassembly := hhas .assembly (hno _ (by decide) (by decide))
  have hlisting := hhas .emitListing (hno _ (by decide) (by decide))
  have hannotate := hhas .annotate (hno _ (by decide) (by decide))
  have hrun := hhas .run (hno _ (by decide) (by decide))
  have hverbose := hhas .verbose (hno _ (by decide) (by decide))
  cases request
  cases request'
  simp only [Request.has] at *
  simp only [*]

/-! ## Reading arguments -/

theorem request?_eq_ok_iff : taken.request? = .ok request ↔
    taken.source = some request.source ∧ taken.unused = [] ∧
      (taken.request.run = true →
        taken.request.output = "" ∧ taken.request.emitListing = false) ∧
      request = { taken.request with source := request.source } := by
  unfold Taken.request?
  cases hsource : taken.source with
  | none => simp
  | some source =>
    by_cases hunused : taken.unused = []
    · by_cases halone : taken.request.run = true →
          taken.request.output = "" ∧ taken.request.emitListing = false
      · have hno : (taken.request.run && (!taken.request.output.isEmpty ||
            taken.request.emitListing)) = false := by
          cases hrun : taken.request.run with
          | false => rfl
          | true => simp [halone hrun]
        simp only [hunused, hno, List.isEmpty_nil, Bool.not_true, Bool.false_eq_true, if_false]
        constructor
        · intro h
          cases h
          exact ⟨rfl, trivial, halone, rfl⟩
        · rintro ⟨hsource, -, -, heq⟩
          rw [heq, ← Option.some.inj hsource]
      · have hyes : (taken.request.run && (!taken.request.output.isEmpty ||
            taken.request.emitListing)) = true := by
          rw [Classical.not_imp, not_and_or] at halone
          simpa using halone
        simp [hunused, hyes, halone]
    · simp [hunused]

/-- Words that are taken with nothing left over are such as a request may be made of. -/
theorem usable_of_takeWords (h : takeWords taken ws = .ok taken') (hunused : taken'.unused = []) :
    ∀ w ∈ ws, w.Usable := by
  fun_induction takeWords taken ws with
  | case1 => exact List.forall_mem_nil _
  | case3 | case6 => cases h
  | case7 | case10 | case12 => exact absurd h (not_leave _ hunused)
  | case2 _ _ _ _ _ ih | case8 _ _ _ _ ih | case11 _ _ _ _ ih =>
    exact List.forall_mem_cons.2 ⟨trivial, List.forall_mem_cons.2 ⟨trivial, ih h⟩⟩
  | case4 _ _ _ _ ih | case5 _ _ _ _ ih | case9 _ _ _ _ _ ih =>
    exact List.forall_mem_cons.2 ⟨trivial, ih h⟩

/-- **Arguments are read as what they ask for**, and they are refused if they ask for nothing. -/
theorem readArguments_eq_ok_iff {arguments : List String} :
    readArguments arguments = .ok request ↔ Asks arguments request := by
  rw [readArguments, bind_eq_ok]
  constructor
  · rintro ⟨ws, hsorted, h⟩
    obtain ⟨taken, htaken, h⟩ := bind_eq_ok.1 h
    obtain ⟨hsource, hunused, halone, heq⟩ := request?_eq_ok_iff.1 h
    have hgives := sortArguments_iff.1 ⟨hsorted, usable_of_takeWords htaken hunused⟩
    obtain ⟨us, huses, rfl, hsources⟩ :=
      exists_uses_of_takeWords hgives.sound htaken hunused
    have hset := setBy_foldl huses.proper
    rw [hsource] at hsources
    rw [heq]
    exact ⟨ws, us, hgives, huses, ⟨hset.output, hset.input, hset.flags⟩, hsources, halone⟩
  · rintro ⟨ws, us, hgives, huses, hasked⟩
    have htaken : takeWords .start ws = .ok (us.foldl Taken.use .start) :=
      takeWords_of_uses huses (by simp [Taken.start, hasked.source])
    refine ⟨ws, (sortArguments_iff.2 hgives).1, bind_eq_ok.2 ⟨_, htaken, ?_⟩⟩
    have hset := setBy_foldl huses.proper
    have heq : request =
        { (us.foldl Taken.use .start).request with source := request.source } :=
      hasked.toSetBy.eq ⟨hset.output, hset.input, hset.flags⟩ rfl
    have halone := hasked.alone
    rw [heq] at halone
    refine request?_eq_ok_iff.2 ⟨?_, unused_foldl us, halone, heq⟩
    rw [source_foldl, hasked.source]
    rfl

end

end TapeCompiler.CommandLine
