import TapeCompiler.Proofs.CommandLine.Verbose
/-!
# All or nothing

A call of the command either delivers its result to one place and exits with zero, or it leaves
everything as it was: nothing on the standard output and every file unchanged. That is so because a
course that fails does nothing but note, and one that delivers has a single action that is more
(`Course.Settles`). A call has no answer only while the program that it runs goes on
(`call_allOrNothing`).
-/
namespace TapeCompiler.CommandLine

open TapeCompiler.Text

/-- What is given out of a compiled program that is not run. -/
def Request.result (request : Request) (compiled : Compiled) : List UInt8 :=
  utf8Bytes (if request.emitListing then compiled.listing else codeText compiled.code)

/-- The three places that a result may go to. The other two are left as they were. -/
inductive Delivered (steps : Nat) (folder : Folder) (request : Request) (compiled : Compiled) :
    State → Prop
  /-- The output of the program that is run. -/
  | run {input : String} {outcome : Machine.Outcome} {notes : List Note} (hrun : request.run = true)
    (hinput : request.input = some input)
    (hends : Machine.run steps (readCode (codeText compiled.code)) (utf8Bytes input)
      Machine.defaultTapeSize = some (.ok outcome)) :
    Delivered steps folder request compiled ⟨folder, outcome.output.toList, notes⟩
  | print {notes : List Note} (hrun : request.run = false) (houtput : request.output = "") :
    Delivered steps folder request compiled ⟨folder, request.result compiled, notes⟩
  /-- A file that can be written. If it is in the folder, it has its new contents there. -/
  | write {place : Place} {files : Folder} {notes : List Note} (hrun : request.run = false)
    (houtput : request.output ≠ "") (hplace : folder.placeFor request.output = .ok place)
    (hfile : ∀ path, place = .inside path → files.lookup path = some (request.result compiled))
    (hothers : ∀ path, place ≠ .inside path → files.lookup path = folder.lookup path) :
    Delivered steps folder request compiled ⟨files, [], notes⟩

/-- The source file can be read and is UTF-8, and its text is compiled as the interface for programs
does it. -/
def Request.Compiles (folder : Folder) (request : Request) (compiled : Compiled) : Prop :=
  ∃ contents source, folder.read request.source = .ok contents ∧
    Encoding.utf8.readText contents = .ok source ∧
    compile ⟨request.annotate, request.assembly⟩ source = .ok compiled

/-- Courses that come to nothing. -/
inductive Fails : Course → Prop
  | escape (e : Escape) : Fails (.escape e)
  | refuse {code : UInt32} (hcode : code ≠ 0) (message : String) : Fails (.refuse code message)

/-- A call that has delivered, or one that cannot deliver and leaves everything as it was. -/
def Settled (folder : Folder) (delivered : State → Prop) (result : State × Except Escape UInt32) :
    Prop :=
  result.2 = .ok 0 ∧ delivered result.1 ∨
    result.2 ≠ .ok 0 ∧ result.1.printed = [] ∧ result.1.files = folder ∧ ∀ state, ¬delivered state

/-- A course that does the one or the other, whatever has been noted before. -/
def Course.Settles (folder : Folder) (delivered : State → Prop) (course : Course) : Prop :=
  ∀ notes, Settled folder delivered (course.carryOut ⟨folder, [], notes⟩)

section

variable {steps : Nat} {folder : Folder} {request : Request} {compiled : Compiled} {course : Course}
  {delivered : State → Prop}

/-! ## Notes -/

theorem perform_notes (state : State) (notes : List Note) (actions : List Action) :
    state.perform (notes.map .note ++ actions) =
      { state with notes := state.notes ++ notes }.perform actions := by
  induction notes generalizing state with
  | nil => rw [List.append_nil]; rfl
  | cons note rest ih =>
    have hrest := ih { state with notes := state.notes ++ [note] }
    rw [List.append_assoc] at hrest
    exact hrest

theorem Course.Settles.after (h : course.Settles folder delivered) (notes : List Note) :
    (Course.after notes course).Settles folder delivered := by
  intro before
  have hcarry : (Course.after notes course).carryOut ⟨folder, [], before⟩ =
      course.carryOut ⟨folder, [], before ++ notes⟩ := by
    simp only [Course.carryOut, Course.after, perform_notes]
  rw [hcarry]
  exact h _

theorem Fails.settles (hfails : Fails course) (h : ∀ state, ¬delivered state) :
    course.Settles folder delivered := by
  intro notes
  cases hfails with
  | escape e => exact .inr ⟨nofun, rfl, rfl, h⟩
  | refuse hcode message => exact .inr ⟨fun heq => hcode (Except.ok.inj heq), rfl, rfl, h⟩

/-! ## Compiled programs -/

theorem Delivered.machine {state : State} {input : String} (hrun : request.run = true)
    (hinput : request.input = some input) (h : Delivered steps folder request compiled state) :
    ∃ outcome, Machine.run steps compiled.code (utf8Bytes input) Machine.defaultTapeSize =
      some (.ok outcome) := by
  rcases h with ⟨-, hinput', hends⟩ | ⟨hrun', -⟩ | ⟨hrun', -⟩
  · cases hinput.symm.trans hinput'
    rw [readCode_codeText] at hends
    exact ⟨_, hends⟩
  · cases hrun.symm.trans hrun'
  · cases hrun.symm.trans hrun'

theorem runCourse_eq_none_iff {input : String} : runCourse steps request compiled input = none ↔
    Machine.run steps compiled.code (utf8Bytes input) Machine.defaultTapeSize = none := by
  unfold runCourse
  cases Machine.run steps compiled.code (utf8Bytes input) Machine.defaultTapeSize with
  | none => simp
  | some answer =>
    cases answer with
    | ok outcome => simp
    | error failure => cases failure <;> simp

theorem settles_run {input : String} (hrun : request.run = true) (hinput : request.input = some input)
    (h : runCourse steps request compiled input = some course) :
    course.Settles folder (Delivered steps folder request compiled) := by
  unfold runCourse at h
  cases hends : Machine.run steps compiled.code (utf8Bytes input) Machine.defaultTapeSize with
  | none =>
    rw [hends] at h
    cases h
  | some answer =>
    rw [hends] at h
    cases answer with
    | ok outcome =>
      cases h
      intro notes
      refine .inl ?_
      rw [← readCode_codeText compiled.code] at hends
      cases request.verbose with
      | false => exact ⟨rfl, .run hrun hinput hends⟩
      | true => exact ⟨rfl, .run hrun hinput hends⟩
    | error failure =>
      have hnone : ∀ state, ¬Delivered steps folder request compiled state := by
        intro state hstate
        obtain ⟨outcome, heq⟩ := hstate.machine hrun hinput
        cases hends.symm.trans heq
      cases failure with
      | fault fault =>
        cases h
        exact (Fails.escape _).settles hnone
      | mismatchedBrackets | negativeTapeSize =>
        cases h
        exact (Fails.refuse (by decide) _).settles hnone

/-- The files after something was written hold it, and are otherwise the files before. -/
theorem lookup_store (folder : Folder) (place : Place) (contents : List UInt8) :
    (∀ path, place = .inside path → (folder.store place contents).lookup path = some contents) ∧
      ∀ path, place ≠ .inside path →
        (folder.store place contents).lookup path = folder.lookup path := by
  cases place with
  | around | beyond => exact ⟨nofun, fun _ _ => rfl⟩
  | inside own =>
    constructor
    · rintro path ⟨⟩
      exact List.lookup_cons_self
    · intro path hne
      have hpath : (path == own) = false := by
        rw [beq_eq_false_iff_ne]
        rintro rfl
        exact hne rfl
      rw [Folder.store, List.lookup_cons, hpath]

theorem settles_delivery (hrun : request.run = false) :
    (deliveryCourse request compiled).Settles folder (Delivered steps folder request compiled) := by
  intro notes
  by_cases houtput : request.output = ""
  · have hcourse : deliveryCourse request compiled =
        ⟨[.print (request.result compiled)], .ok 0⟩ := by
      rw [deliveryCourse, if_pos (by simp [houtput])]
      rfl
    rw [hcourse]
    exact .inl ⟨rfl, .print hrun houtput⟩
  · have hcourse : deliveryCourse request compiled =
        ⟨[.write request.output (request.result compiled)], .ok 0⟩ := by
      rw [deliveryCourse, if_neg (by simpa using houtput)]
      rfl
    rw [hcourse, Course.carryOut, State.perform, State.act]
    cases hplace : folder.placeFor request.output with
    | ok place =>
      obtain ⟨hfile, hothers⟩ := lookup_store folder place (request.result compiled)
      exact .inl ⟨rfl, .write hrun houtput hplace hfile hothers⟩
    | error problem =>
      refine .inr ⟨?_, rfl, rfl, ?_⟩
      · intro heq
        cases heq
      · rintro state (⟨hrun', -, -⟩ | ⟨-, houtput'⟩ | ⟨-, -, hplace', -, -⟩)
        · cases hrun.symm.trans hrun'
        · exact houtput houtput'
        · cases hplace.symm.trans hplace'

theorem finish_eq_none_iff : finish steps request compiled = none ↔
    request.run = true ∧ ∃ input, request.input = some input ∧
      Machine.run steps compiled.code (utf8Bytes input) Machine.defaultTapeSize = none := by
  unfold finish
  cases hrun : request.run with
  | false => simp
  | true =>
    cases hinput : request.input with
    | none => simp
    | some input => simp [runCourse_eq_none_iff]

theorem settles_finish (h : finish steps request compiled = some course) :
    course.Settles folder (Delivered steps folder request compiled) := by
  obtain ⟨inner, hinner, rfl⟩ := Option.map_eq_some_iff.1 h
  refine Course.Settles.after ?_ _
  cases hrun : request.run with
  | false =>
    rw [hrun] at hinner
    cases hinner
    exact settles_delivery hrun
  | true =>
    rw [hrun] at hinner
    cases hinput : request.input with
    | some input =>
      rw [hinput] at hinner
      exact settles_run hrun hinput hinner
    | none =>
      rw [hinput] at hinner
      cases hinner
      refine (Fails.escape _).settles ?_
      rintro state (⟨-, hinput', -⟩ | ⟨hrun', -⟩ | ⟨hrun', -⟩)
      · cases hinput.symm.trans hinput'
      · cases hrun.symm.trans hrun'
      · cases hrun.symm.trans hrun'

/-! ## Sources -/

theorem Request.Compiles.unique {compiled' : Compiled} (h : request.Compiles folder compiled)
    (h' : request.Compiles folder compiled') : compiled = compiled' := by
  obtain ⟨contents, source, hread, htext, hcompile⟩ := h
  obtain ⟨contents', source', hread', htext', hcompile'⟩ := h'
  cases hread.symm.trans hread'
  cases htext.symm.trans htext'
  exact Except.ok.inj (hcompile.symm.trans hcompile')

theorem build_of_text {contents : List UInt8} {source : String}
    (htext : Encoding.utf8.readText contents = .ok source) :
    build request contents = (compile ⟨request.annotate, request.assembly⟩ source).mapError
      fun failure =>
        if failure.isReported then .refuse 1 failure.message else .escape (.compile failure) := by
  rw [build, compileFile, htext]
  show ((compile ⟨request.annotate, request.assembly⟩ source).mapError _).mapError _ = _
  cases compile ⟨request.annotate, request.assembly⟩ source <;> rfl

/-- A source comes to a compiled program, or the course fails. -/
theorem courseFor_cases (steps : Nat) (folder : Folder) (request : Request) :
    (∃ compiled, request.Compiles folder compiled ∧
      courseFor steps folder request = finish steps request compiled) ∨
    (∀ compiled, ¬request.Compiles folder compiled) ∧
      ∃ course, Fails course ∧ courseFor steps folder request = some course := by
  unfold courseFor
  cases hread : folder.read request.source with
  | error problem =>
    refine .inr ⟨?_, .unread request problem, ?_, rfl⟩
    · rintro compiled ⟨contents, _, hread', -⟩
      cases hread.symm.trans hread'
    · cases problem with
      | missing => exact .refuse (by decide) _
      | _ => exact .escape _
  | ok contents =>
    have hcontents : ∀ {compiled}, request.Compiles folder compiled → ∃ source,
        Encoding.utf8.readText contents = .ok source ∧
          compile ⟨request.annotate, request.assembly⟩ source = .ok compiled := by
      rintro compiled ⟨contents', source, hread', h⟩
      cases hread.symm.trans hread'
      exact ⟨source, h⟩
    simp only [fulfil]
    cases htext : Encoding.utf8.readText contents with
    | error error =>
      have hbuild : build request contents = .error (.escape (.undecodable error)) := by
        rw [build, compileFile, htext]
        rfl
      rw [hbuild]
      refine .inr ⟨fun compiled h => ?_, _, .escape _, rfl⟩
      obtain ⟨_, htext', -⟩ := hcontents h
      cases htext.symm.trans htext'
    | ok source =>
      rw [build_of_text htext]
      cases hcompile : compile ⟨request.annotate, request.assembly⟩ source with
      | ok compiled => exact .inl ⟨compiled, ⟨contents, source, hread, htext, hcompile⟩, rfl⟩
      | error failure =>
        refine .inr ⟨fun compiled h => ?_, _, ?_, rfl⟩
        · obtain ⟨_, htext', hcompile'⟩ := hcontents h
          cases htext.symm.trans htext'
          cases hcompile.symm.trans hcompile'
        · show Fails (if failure.isReported then _ else _)
          split
          · exact .refuse (by decide) _
          · exact .escape _

/-! ## Calls -/

theorem Asks.unique {arguments : List String} {other : Request} (h : Asks arguments request)
    (hother : Asks arguments other) : request = other :=
  Except.ok.inj ((readArguments_eq_ok_iff.2 h).symm.trans (readArguments_eq_ok_iff.2 hother))

/-- Arguments ask for a program that compiles, or the course fails. -/
theorem courseOf_cases (steps : Nat) (folder : Folder) (arguments : List String) :
    (∃ request compiled, Asks arguments request ∧ request.Compiles folder compiled ∧
      courseOf steps folder arguments = finish steps request compiled) ∨
    (∀ request compiled, Asks arguments request → ¬request.Compiles folder compiled) ∧
      ∃ course, Fails course ∧ courseOf steps folder arguments = some course := by
  unfold courseOf
  cases hread : readArguments arguments with
  | error error =>
    refine .inr ⟨fun request compiled hasks => ?_, _, .refuse (by decide) _, rfl⟩
    cases hread.symm.trans (readArguments_eq_ok_iff.2 hasks)
  | ok request =>
    have hasks := readArguments_eq_ok_iff.1 hread
    rcases courseFor_cases steps folder request with ⟨compiled, hcompiles, h⟩ | ⟨hno, h⟩
    · exact .inl ⟨request, compiled, hasks, hcompiles, h⟩
    · refine .inr ⟨fun request' compiled hasks' => ?_, h⟩
      obtain rfl := hasks.unique hasks'
      exact hno compiled

theorem courseOf_eq_none_iff {arguments : List String} : courseOf steps folder arguments = none ↔
    ∃ request compiled input, Asks arguments request ∧ request.Compiles folder compiled ∧
      request.run = true ∧ request.input = some input ∧
      Machine.run steps compiled.code (utf8Bytes input) Machine.defaultTapeSize = none := by
  rcases courseOf_cases steps folder arguments with
    ⟨request, compiled, hasks, hcompiles, hcourse⟩ | ⟨hno, course, -, hcourse⟩
  · rw [hcourse, finish_eq_none_iff]
    constructor
    · rintro ⟨hrun, input, hinput, hnone⟩
      exact ⟨request, compiled, input, hasks, hcompiles, hrun, hinput, hnone⟩
    · rintro ⟨request', compiled', input, hasks', hcompiles', h⟩
      obtain rfl := hasks.unique hasks'
      obtain rfl := hcompiles.unique hcompiles'
      exact ⟨h.1, input, h.2⟩
  · rw [hcourse]
    constructor
    · nofun
    · rintro ⟨request, compiled, input, hasks, hcompiles, -⟩
      exact absurd hcompiles (hno request compiled hasks)

/-- What a call delivers through all its stages. -/
def Delivers (steps : Nat) (folder : Folder) (arguments : List String) (state : State) : Prop :=
  ∃ request compiled, Asks arguments request ∧ request.Compiles folder compiled ∧
    Delivered steps folder request compiled state

theorem settles_courseOf {arguments : List String}
    (h : courseOf steps folder arguments = some course) :
    course.Settles folder (Delivers steps folder arguments) := by
  rcases courseOf_cases steps folder arguments with
    ⟨request, compiled, hasks, hcompiles, hcourse⟩ | ⟨hno, other, hfails, hcourse⟩
  · have hdelivers : Delivers steps folder arguments =
        Delivered steps folder request compiled := by
      funext state
      refine propext ⟨?_, fun hdelivered => ⟨request, compiled, hasks, hcompiles, hdelivered⟩⟩
      rintro ⟨request', compiled', hasks', hcompiles', hdelivered⟩
      obtain rfl := hasks.unique hasks'
      obtain rfl := hcompiles.unique hcompiles'
      exact hdelivered
    rw [hdelivers]
    exact settles_finish (hcourse.symm.trans h)
  · cases hcourse.symm.trans h
    exact hfails.settles fun state ⟨request, compiled, hasks, hcompiles, _⟩ =>
      hno request compiled hasks hcompiles

end

/-- **The command is all or nothing.** A call answers unless it runs a program that has not ended
yet. If it does not exit with zero then nothing has been printed and every file is as it was. It exits
with zero exactly if its arguments ask for a request, the source file can be read and is UTF-8, its
text is compiled, and the result can be delivered; it has then been delivered to one place. The verbose
switch, given in front or in any other way, changes nothing but notes. -/
theorem call_allOrNothing (steps : Nat) (folder : Folder) (arguments : List String) :
    (call steps folder arguments = none ↔ ∃ request compiled input,
      Asks arguments request ∧ request.Compiles folder compiled ∧
      request.run = true ∧ request.input = some input ∧
      Machine.run steps (readCode (codeText compiled.code)) (utf8Bytes input)
        Machine.defaultTapeSize = none) ∧
    ∀ state ending, call steps folder arguments = some (state, ending) →
      (ending ≠ .ok 0 → state.printed = [] ∧ state.files = folder) ∧
      (ending = .ok 0 ↔ ∃ request compiled,
        Asks arguments request ∧ request.Compiles folder compiled ∧
        Delivered steps folder request compiled state) ∧
      (∃ other, call steps folder ("--verbose" :: arguments) = some (other, ending) ∧
        other.silent = state.silent) ∧
      ∀ others request request', Asks arguments request → Asks others request' →
        request.quiet = request'.quiet →
        ∃ other, call steps folder others = some (other, ending) ∧
          other.silent = state.silent := by
  refine ⟨?_, fun state ending h => ?_⟩
  · rw [call, Option.map_eq_none_iff, courseOf_eq_none_iff]
    simp only [readCode_codeText]
  have hsame : ∀ others, (call steps folder others).map silence =
      (call steps folder arguments).map silence →
      ∃ other, call steps folder others = some (other, ending) ∧ other.silent = state.silent := by
    intro others hothers
    rw [h] at hothers
    obtain ⟨⟨other, _⟩, hother, heq⟩ := Option.map_eq_some_iff.1 hothers
    cases Prod.mk.inj heq |>.2
    exact ⟨other, hother, (Prod.mk.inj heq).1⟩
  obtain ⟨course, hcourse, hcarried⟩ := Option.map_eq_some_iff.1 h
  have hsettled := settles_courseOf hcourse []
  rw [show course.carryOut ⟨folder, [], []⟩ = (state, ending) from hcarried] at hsettled
  refine ⟨?_, ?_, hsame _ (silence_call_verbose arguments), ?_⟩
  · intro hfailed
    rcases hsettled with ⟨hyes, -⟩ | ⟨-, hprinted, hfiles, -⟩
    · exact absurd hyes hfailed
    · exact ⟨hprinted, hfiles⟩
  · constructor
    · intro hyes
      rcases hsettled with ⟨-, hdelivers⟩ | ⟨hfailed, -⟩
      · exact hdelivers
      · exact absurd hyes hfailed
    · intro hdelivers
      rcases hsettled with ⟨hyes, -⟩ | ⟨-, -, -, hnone⟩
      · exact hyes
      · exact absurd hdelivers (hnone state)
  · intro others request request' hasks hasks' hquiet
    exact hsame others (silence_call_of_quiet (readArguments_eq_ok_iff.2 hasks')
      (readArguments_eq_ok_iff.2 hasks) hquiet.symm)

/-- A folder with the instruction `set 0 1` in a file. -/
def oneFile : Folder := [(["p"], [0x73, 0x65, 0x74, 0x20, 0x30, 0x20, 0x31])]

/-- The instruction is assembled into another file. Without a source the folder is left as it is. -/
theorem call_allOrNothing_oneFile :
    (∃ state, call 0 oneFile ["p", "--asm", "-o", "q"] = some (state, .ok 0) ∧
      state.files.lookup ["q"] = some (utf8Bytes "[-]+") ∧
      ∃ request compiled, Asks ["p", "--asm", "-o", "q"] request ∧
        request.Compiles oneFile compiled ∧ Delivered 0 oneFile request compiled state) ∧
    ∃ state, call 0 oneFile ["q", "--asm", "-o", "p"] = some (state, .ok 1) ∧
      state.printed = [] ∧ state.files = oneFile := by
  constructor
  · have h : call 0 oneFile ["p", "--asm", "-o", "q"] =
        some (⟨(["q"], utf8Bytes "[-]+") :: oneFile, [], []⟩, .ok 0) := rfl
    exact ⟨_, h, rfl, ((call_allOrNothing _ _ _).2 _ _ h).2.1.1 rfl⟩
  · have h : call 0 oneFile ["q", "--asm", "-o", "p"] =
        some (⟨oneFile, [], [.line "Couldn't find file: q"]⟩, .ok 1) := rfl
    exact ⟨_, h, ((call_allOrNothing _ _ _).2 _ _ h).1 (by decide)⟩

end TapeCompiler.CommandLine
