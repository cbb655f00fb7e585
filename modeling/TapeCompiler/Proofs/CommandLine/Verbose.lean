import TapeCompiler.CommandLine.Respond
import TapeCompiler.Proofs.CommandLine.Requests
/-!
# The verbose switch

The switch adds notes to a call and changes nothing else. Arguments with the switch in front are read
as the same request, made verbose (`readArguments_verbose`), and requests that differ in nothing else
have the same course but for its notes (`silent_courseFor`). A course without its notes comes to the
same state and ends in the same way (`carryOut_silent`).
-/
namespace TapeCompiler.CommandLine

/-! ## Requests -/

/-- A request with the switch. -/
def Request.loud (request : Request) : Request := { request with verbose := true }

/-- A request without the switch. -/
def Request.quiet (request : Request) : Request := { request with verbose := false }

namespace Request

variable (request : Request)

@[simp] theorem quiet_source : request.quiet.source = request.source := rfl

@[simp] theorem quiet_run : request.quiet.run = request.run := rfl

@[simp] theorem quiet_input : request.quiet.input = request.input := rfl

end Request

def Taken.loud (taken : Taken) : Taken := { taken with request := taken.request.loud }

namespace Taken

variable (taken : Taken)

@[simp] theorem source_loud : taken.loud.source = taken.source := rfl

@[simp] theorem set_loud (s : Switch) (value : Option String) :
    taken.loud.set s value = (taken.set s value).loud := by
  cases s <;> rfl

theorem request?_loud : taken.loud.request? = taken.request?.map Request.loud := by
  unfold request?
  rw [source_loud]
  cases taken.source with
  | none => rfl
  | some source =>
    show (if !taken.unused.isEmpty then _
      else if taken.request.run && (!taken.request.output.isEmpty || taken.request.emitListing) then _
      else _) = _
    split
    · rfl
    split
    · rfl
    · rfl

end Taken

/-- Which words are taken for what does not depend on the switch. -/
theorem takeWords_loud (taken : Taken) (ws : List Word) :
    takeWords taken.loud ws = (takeWords taken ws).map Taken.loud := by
  fun_induction takeWords taken ws with
  | case1 => rfl
  | case2 taken s htakes value rest ih =>
    rw [takeWords, if_pos htakes, Taken.set_loud]
    exact ih
  | case3 taken s rest htakes hplain =>
    rw [takeWords.eq_def]
    show (if s.takesValue then _ else _) = _
    rw [if_pos htakes]
    split
    · exact (hplain _ _ rfl).elim
    · rfl
  | case4 taken s rest htakes ih =>
    rw [takeWords.eq_def]
    show (if s.takesValue then _ else _) = _
    rw [if_neg htakes, Taken.set_loud]
    exact ih
  | case5 taken s value rest ih =>
    rw [takeWords, Taken.set_loud]
    exact ih
  | case6 => rfl
  | case7 taken text rest ih => exact ih
  | case8 taken text rest hsource ih =>
    simp only [takeWords, Taken.source_loud, hsource]
    exact ih
  | case9 taken text rest hseparator hsource ih =>
    rw [takeWords.eq_def]
    simp only [Taken.source_loud, hsource]
    exact ih
  | case10 taken text source rest hsource ih =>
    rw [takeWords.eq_def]
    simp only [Taken.source_loud, hsource]
    exact ih
  | case11 taken text rest hsource ih =>
    simp only [takeWords, Taken.source_loud, hsource]
    exact ih
  | case12 taken rest hplain ih =>
    rw [takeWords.eq_def]
    simp only [Taken.source_loud]
    exact ih

theorem readArguments_verbose (arguments : List String) :
    readArguments ("--verbose" :: arguments) = (readArguments arguments).map Request.loud := by
  have hsorted : sortArguments ("--verbose" :: arguments) =
      (sortArguments arguments).map (.switch .verbose :: ·) := by
    rw [sortArguments, if_neg (by decide), show wordsOf "--verbose" = .ok [.switch .verbose] from rfl]
    cases sortArguments arguments <;> rfl
  rw [readArguments, readArguments, hsorted]
  cases sortArguments arguments with
  | error error => rfl
  | ok ws =>
    have hfirst : takeWords .start (.switch .verbose :: ws) = takeWords Taken.start.loud ws := by
      rw [takeWords.eq_def]
      rfl
    show (takeWords .start (.switch .verbose :: ws) >>= Taken.request?) =
      (takeWords .start ws >>= Taken.request?).map Request.loud
    rw [hfirst, takeWords_loud]
    cases takeWords .start ws with
    | error error => rfl
    | ok taken => exact taken.request?_loud

/-! ## Courses -/

/-- A state, notes aside. -/
def State.silent (state : State) : State := { state with notes := [] }

@[simp] theorem State.silent_files (state : State) : state.silent.files = state.files := rfl

/-- Whether an action is more than a note. -/
def Action.lasts : Action → Bool
  | .note _ => false
  | .print _ | .write _ _ => true

/-- A course without its notes. -/
def Course.silent (course : Course) : Course :=
  { course with actions := course.actions.filter Action.lasts }

/-- The state after a call and how the call ends, notes aside. -/
def silence (result : State × Except Escape UInt32) : State × Except Escape UInt32 :=
  (result.1.silent, result.2)

section

variable {steps : Nat} {files : Folder} {request other : Request}

theorem act_silent (state : State) {action : Action} (h : action.lasts = true) :
    state.silent.act action = (state.act action).map State.silent := by
  cases action with
  | note note => cases h
  | print bytes => rfl
  | write path contents =>
    simp only [State.act, State.silent_files]
    cases state.files.placeFor path <;> rfl

/-- What is noted makes no difference to what is done. -/
theorem perform_silent (state : State) (actions : List Action) :
    state.silent.perform (actions.filter Action.lasts) =
      ((state.perform actions).1.silent, (state.perform actions).2) := by
  induction actions generalizing state with
  | nil => rfl
  | cons action rest ih =>
    cases hlasts : action.lasts with
    | false =>
      cases action with
      | note note =>
        rw [List.filter_cons_of_neg (by simp [hlasts])]
        exact ih { state with notes := state.notes ++ [note] }
      | print | write => cases hlasts
    | true =>
      rw [List.filter_cons_of_pos hlasts, State.perform, State.perform, act_silent state hlasts]
      cases state.act action with
      | error escape => rfl
      | ok next => exact ih next

theorem carryOut_silent (course : Course) (state : State) :
    course.silent.carryOut state.silent = silence (course.carryOut state) := by
  rw [Course.carryOut, Course.carryOut, Course.silent, perform_silent]
  cases state.perform course.actions with
  | mk next escape => cases escape <;> rfl

@[simp] theorem silent_after (notes : List Note) (course : Course) :
    (Course.after notes course).silent = course.silent := by
  have hnotes : (notes.map Action.note).filter Action.lasts = [] := by
    simp [Action.lasts]
  simp only [Course.silent, Course.after, List.filter_append, hnotes, List.nil_append]

theorem silent_runCourse (request : Request) (compiled : Compiled) (input : String) :
    (runCourse steps request.quiet compiled input).map Course.silent =
      (runCourse steps request compiled input).map Course.silent := by
  unfold runCourse
  cases Machine.run steps compiled.code (Text.utf8Bytes input) Machine.defaultTapeSize with
  | none => rfl
  | some answer =>
    cases answer with
    | ok outcome => cases hverbose : request.verbose <;> rfl
    | error failure => cases failure <;> rfl

theorem silent_finish (request : Request) (compiled : Compiled) :
    (finish steps request.quiet compiled).map Course.silent =
      (finish steps request compiled).map Course.silent := by
  simp only [finish, Option.map_map, Function.comp_def, silent_after, Request.quiet_run,
    Request.quiet_input]
  by_cases hrun : request.run = true
  · simp only [hrun, Bool.not_true, Bool.false_eq_true, if_false]
    cases request.input with
    | none => rfl
    | some input => exact silent_runCourse request compiled input
  · simp only [hrun, Bool.not_false, if_true]
    rfl

theorem silent_courseFor (request : Request) :
    (courseFor steps files request.quiet).map Course.silent =
      (courseFor steps files request).map Course.silent := by
  unfold courseFor
  rw [Request.quiet_source]
  cases files.read request.source with
  | error problem => cases problem <;> rfl
  | ok contents =>
    have hbuild : build request.quiet contents = build request contents := rfl
    simp only [fulfil, hbuild]
    cases build request contents with
    | error course => rfl
    | ok compiled => exact silent_finish request compiled

/-! ## Calls -/

theorem silence_call {arguments : List String} : (call steps files arguments).map silence =
    ((courseOf steps files arguments).map Course.silent).map (·.carryOut (.start files)) := by
  rw [call, Option.map_map, Option.map_map]
  refine congrArg (Option.map · _) (funext fun course => ?_)
  exact (carryOut_silent course (.start files)).symm

/-- What a request comes to, notes aside, does not depend on the switch. -/
theorem silence_call_of_quiet {arguments others : List String}
    (h : readArguments arguments = .ok request) (hother : readArguments others = .ok other)
    (hquiet : request.quiet = other.quiet) :
    (call steps files arguments).map silence = (call steps files others).map silence := by
  rw [silence_call, silence_call, courseOf, courseOf, h, hother]
  simp only
  rw [← silent_courseFor request, hquiet, silent_courseFor]

theorem silence_call_verbose (arguments : List String) :
    (call steps files ("--verbose" :: arguments)).map silence =
      (call steps files arguments).map silence := by
  have hverbose := readArguments_verbose arguments
  cases hread : readArguments arguments with
  | error error =>
    rw [hread] at hverbose
    rw [call, call, courseOf, courseOf, hread, hverbose]
    rfl
  | ok request =>
    rw [hread] at hverbose
    exact silence_call_of_quiet hverbose hread rfl

end

end TapeCompiler.CommandLine
