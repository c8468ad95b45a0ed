import Cs1330.Shell.Refusals

/-!
# `fg` and `bg` without their job

Neither an argument too many nor a job that is not listed ends `fg` or `bg`: the calls that
follow are made with what is there, and with the pid -1 for a job that was not found.
-/

namespace Cs1330.Shell

open Run (Keeps Stops)

variable {s s' : State} {u : Unit} {p : Parser} {command : CString} {answers : Answers}

/-- A call that neither signals nor waits. -/
def Call.Plain : Call → Prop
  | .print _ _ | .tcsetpgrp _ => True
  | .chdir _ | .link _ _ | .unlink _ | .kill _ _ | .fork _ _ | .waitpid _ _ _ => False

theorem print_plain (stream : Stream) (line : CString) : Call.Plain (.print stream line) := trivial

/-! ### What the two commands do when they return -/

theorem orPerror_trace {call : Call} {name : String} {error : Option CString} (run : orPerror call name error s = .ok (u, s')) :
    ∃ after, s'.trace = s.trace ++ call :: after ∧ ∀ call ∈ after, call.Plain := by
  unfold orPerror at run
  obtain ⟨_, s₁, recorded, run⟩ := Run.bind run
  cases recorded
  cases error with
  | none =>
    cases run
    exact ⟨[], rfl, by simp⟩
  | some error =>
    cases run
    exact ⟨[_], List.append_assoc _ _ _, by simp [Call.Plain]⟩

theorem waitpid_trace {target : Int} {options : WaitOptions} {result : Option (Int × Status)}
    (run : waitpid target options result s = .ok (u, s')) :
    s'.trace = s.trace ++ [.waitpid target options result] ∧ s'.jid = s.jid := by
  unfold waitpid at run
  obtain ⟨_, _, got, run⟩ := Run.bind run
  cases got
  split at run
  · cases run
    exact ⟨rfl, rfl⟩
  · cases run

theorem handleForeground_plain (fgJid fgPid : Int) (result : Option (Int × Status)) :
    Keeps (Adds Call.Plain) (handleForeground fgJid fgPid result) := by
  unfold handleForeground
  refine Keeps.of_get.bind ?_
  intro s
  split
  · exact (setJobList_adds _).bind fun _ => print_adds print_plain _ _
  · exact setJobList_adds _
  · exact (print_adds print_plain _ _).bind fun _ => setJobList_adds _
  · exact .of_pure _
  · exact .of_pure _

/-- The pid that `get_job_pid` gives for an argument of `fg` or `bg`. -/
def State.jobPid (s : State) (arg : CString) : Int := s.jobList.getJobPid (atoi arg.tail)

def fgOptions : WaitOptions := ⟨false, true, false⟩

theorem fg_ok (run : fg p answers s = .ok (u, s')) : ∃ arg, p.args[1]? = some arg ∧
    s.mayReport (s.jobPid arg) fgOptions answers.waited ∧ (answers.waited = none → Quiet s s') ∧
    ∃ early late last, s'.trace = s.trace ++ (early ++ .kill (-s.jobPid arg) .sigcont ::
        (late ++ .waitpid (s.jobPid arg) fgOptions answers.waited :: last)) ∧
      ∀ call ∈ early ++ (late ++ last), call.Plain := by
  unfold fg at run
  obtain ⟨⟨jid, pid⟩, s₁, named, run⟩ := Run.bind run
  obtain ⟨quiet, arg, args, isJid, isPid⟩ := namedJob_ok named
  obtain ⟨early, trace₁, plain₁⟩ := namedJob_adds print_plain _ _ named
  rw [isJid] at isPid
  have isPid : pid = s.jobPid arg := isPid
  rw [isPid] at run
  obtain ⟨_, s₂, terminal, run⟩ := Run.bind run
  have trace₂ : s₂.trace = s₁.trace ++ [.tcsetpgrp (s.jobPid arg)] := by
    cases terminal
    rfl
  obtain ⟨_, s₃, killed, run⟩ := Run.bind run
  obtain ⟨late, trace₃, plain₃⟩ := orPerror_trace killed
  have quiet₂ := trans_of Quiet quiet (record_quiet _ terminal)
  have quiet₃ := trans_of Quiet quiet₂ (orPerror_keeps record_quiet _ _ _ killed)
  obtain ⟨_, s₄, waited, run⟩ := Run.bind run
  obtain ⟨possible, jobList₄, children₄⟩ := waitpid_ok waited
  obtain ⟨_, s₅, handled, run⟩ := Run.bind run
  obtain ⟨after, trace₅, plain₅⟩ := handleForeground_plain _ _ _ handled
  cases run
  have trace₄ : s₄.trace = s₃.trace ++ [.waitpid (s.jobPid arg) fgOptions answers.waited] := (waitpid_trace waited).1
  refine ⟨arg, args, ?_, ?_, early ++ [.tcsetpgrp (s.jobPid arg)], late, after ++ [.tcsetpgrp s₅.pgrp], ?_, ?_⟩
  · unfold State.mayReport at possible ⊢
    rw [← quiet₃.children]
    exact possible
  · intro nothing
    rw [nothing] at handled children₄
    cases handled
    exact ⟨jobList₄.trans quiet₃.jobList, (waitpid_trace waited).2.trans quiet₃.jid, children₄.trans quiet₃.children⟩
  · show s₅.trace ++ [.tcsetpgrp s₅.pgrp] = _
    rw [trace₅, trace₄, trace₃, trace₂, trace₁]
    simp only [List.append_assoc, List.cons_append, List.nil_append]
  · intro call member
    simp only [List.mem_append, List.mem_singleton] at member
    rcases member with (member | rfl) | member | member | rfl
    · exact plain₁ call member
    · trivial
    · exact plain₃ call member
    · exact plain₅ call member
    · trivial

theorem bg_ok (run : bg p answers s = .ok (u, s')) : ∃ arg, p.args[1]? = some arg ∧
    s'.jobList = (s.jobList.updateJobPid (s.jobPid arg) .running).1 ∧ s'.jid = s.jid ∧ s'.children = s.children ∧
    ∃ early late, s'.trace = s.trace ++ (early ++ .kill (-s.jobPid arg) .sigcont :: late) ∧
      ∀ call ∈ early ++ late, call.Plain := by
  unfold bg at run
  obtain ⟨⟨jid, pid⟩, s₁, named, run⟩ := Run.bind run
  obtain ⟨quiet, arg, args, isJid, isPid⟩ := namedJob_ok named
  obtain ⟨early, trace₁, plain₁⟩ := namedJob_adds print_plain _ _ named
  rw [isJid] at isPid
  have isPid : pid = s.jobPid arg := isPid
  rw [isPid] at run
  obtain ⟨_, s₂, killed, run⟩ := Run.bind run
  obtain ⟨late, trace₂, plain₂⟩ := orPerror_trace killed
  have quiet₂ := trans_of Quiet quiet (orPerror_keeps record_quiet _ _ _ killed)
  cases run
  refine ⟨arg, args, ?_, quiet₂.jid, quiet₂.children, early, late, ?_, ?_⟩
  · show (s₂.jobList.updateJobPid _ _).1 = _
    rw [quiet₂.jobList]
  · show s₂.trace = _
    rw [trace₂, trace₁, List.append_assoc]
  · intro call member
    rcases List.mem_append.mp member with member | member
    · exact plain₁ call member
    · exact plain₂ call member

/-! ### How they can stop -/

theorem orPerror_stops (call : Call) (name : String) (error : Option CString) : Stops Impossible (orPerror call name error) := by
  unfold orPerror
  refine (Stops.of_modify _).bind fun _ => ?_
  cases error with
  | none => exact .of_pure _
  | some error => exact Stops.of_modify _

theorem complain_stops (wrong : Bool) (line : CString) : Stops Impossible (complain wrong line) := by
  unfold complain
  split
  · exact Stops.of_modify _
  · exact .of_pure _

theorem namedJob_stops {arg : CString} (args : p.args[1]? = some arg) (name : String) : Stops Impossible (namedJob name p) := by
  have read : Stops Impossible (argument p 1) := by
    unfold argument
    rw [args]
    exact .of_pure _
  exact (complain_stops _ _).bind fun _ => read.bind fun _ => Stops.of_get.bind fun _ => (complain_stops _ _).bind fun _ =>
    .of_pure _

theorem handleForeground_stops (fgJid fgPid : Int) (result : Option (Int × Status)) :
    Stops Impossible (handleForeground fgJid fgPid result) := by
  unfold handleForeground
  refine Stops.of_get.bind ?_
  intro s
  split
  · exact (Stops.of_modify _).bind fun _ => Stops.of_modify _
  · exact Stops.of_modify _
  · exact (Stops.of_modify _).bind fun _ => Stops.of_modify _
  · exact .of_pure _
  · exact .of_pure _

theorem fg_stops {arg : CString} (args : p.args[1]? = some arg) : Stops Impossible (fg p answers) :=
  (namedJob_stops args _).bind fun _ => (Stops.of_modify _).bind fun _ => (orPerror_stops _ _ _).bind fun _ =>
    (waitpid_stops _ _ _).bind fun _ => (handleForeground_stops _ _ _).bind fun _ => Stops.of_get.bind fun _ =>
    Stops.of_modify _

theorem bg_stops {arg : CString} (args : p.args[1]? = some arg) : Stops Impossible (bg p answers) :=
  (namedJob_stops args _).bind fun _ => (orPerror_stops _ _ _).bind fun _ => Stops.of_get.bind fun _ => Stops.of_modify _

/-! ### Lines that should change nothing -/

/-- `execute_command` up to its last call of `check_background_job`. -/
def beforeCheck (command : CString) (answers : Answers) : ShellM Unit := do
  let p ← parse command
  dispatch (fun name => runCommand p name answers) (pure ()) p.args

theorem executeCommand_beforeCheck (command : CString) (answers : Answers) :
    executeCommand command answers = (do
      beforeCheck command answers
      checkBackgroundJob answers.reported) := by
  unfold executeCommand beforeCheck
  rw [bind_assoc]
  congr 1
  funext p
  cases p.args with
  | nil => rfl
  | cons name rest => simp [dispatch]

/-- No signal is sent and none of the children is waited for; a `kill` that the kernel refuses
sends nothing. -/
def Call.Gentle (children : Finset Int) (refused : Option CString) : Call → Prop
  | .kill _ _ => refused ≠ none
  | .waitpid target _ _ => ∀ pid ∈ children, State.waitsFor target pid = false
  | .print _ _ | .chdir _ | .link _ _ | .unlink _ | .tcsetpgrp _ | .fork _ _ => True

/-- The command returned, and jobs, jid counter and children are as they were. -/
def ChangesNothing (s : State) (answers : Answers) (result : Except Stop (Unit × State)) : Prop :=
  ∃ s', result = .ok ((), s') ∧ Quiet s s' ∧ Adds (Call.Gentle s.children answers.error) s s'

/-- There is an argument, the `kill` is refused, and what follows it finds nothing to do. -/
def FindsNothing (s : State) (args : List CString) (answers : Answers) : Prop :=
  args.length < argsSize ∧ answers.error ≠ none ∧ ∃ arg, args[1]? = some arg ∧
    (args.head? = some (text "fg") → ∀ pid ∈ s.children, State.waitsFor (s.jobPid arg) pid = false) ∧
    (args.head? = some (text "bg") → (s.jobList.updateJobPid (s.jobPid arg) .running).1 = s.jobList)

theorem Call.Plain.gentle {call : Call} {children : Finset Int} {refused : Option CString} (plain : call.Plain) :
    call.Gentle children refused := by
  cases call <;> trivial

theorem jobPid_quiet (quiet : Quiet s s') (arg : CString) : s'.jobPid arg = s.jobPid arg := by
  unfold State.jobPid
  rw [quiet.jobList]

theorem fg_changesNothing {s₁ : State} (early : Adds (Call.Gentle s.children answers.error) s s₁) (quiet : Quiet s s₁)
    (possible : fg p answers s₁ ≠ .error .impossible) :
    ChangesNothing s answers (fg p answers s₁) ↔ answers.error ≠ none ∧ ∃ arg, p.args[1]? = some arg ∧
      ∀ pid ∈ s.children, State.waitsFor (s.jobPid arg) pid = false := by
  constructor
  · intro ⟨s', run, _, adds⟩
    obtain ⟨arg, args, _, _, front, late, last, trace, _⟩ := fg_ok run
    have killed := early.middle trace adds
    have later : s'.trace = s₁.trace ++ ((front ++ .kill (-s₁.jobPid arg) .sigcont :: late) ++
        .waitpid (s₁.jobPid arg) fgOptions answers.waited :: last) := by
      rw [trace]
      simp only [List.append_assoc, List.cons_append]
    have waited : ∀ pid ∈ s.children, State.waitsFor (s₁.jobPid arg) pid = false := early.middle later adds
    rw [jobPid_quiet quiet] at waited
    exact ⟨killed, arg, args, waited⟩
  · intro ⟨refused, arg, args, alone⟩
    obtain ⟨_, s', run⟩ := returns_of_possible (fg_stops args) possible
    obtain ⟨arg', args', reports, stays, front, late, last, trace, plain⟩ := fg_ok run
    obtain rfl := Option.some.inj (args.symm.trans args')
    rw [jobPid_quiet quiet] at trace reports
    have nothing : answers.waited = none := by
      cases waited : answers.waited with
      | none => rfl
      | some report =>
        obtain ⟨pid, status⟩ := report
        rw [waited] at reports
        obtain ⟨child, asked, _⟩ := reports
        rw [quiet.children] at child
        rw [alone pid child] at asked
        cases asked
    refine ⟨s', run, trans_of Quiet quiet (stays nothing), trans_of (Adds _) early ⟨_, trace, ?_⟩⟩
    intro call member
    simp only [List.mem_append, List.mem_cons] at member plain
    rcases member with member | rfl | member | rfl | member
    · exact (plain call (Or.inl member)).gentle
    · exact refused
    · exact (plain call (Or.inr (Or.inl member))).gentle
    · exact alone
    · exact (plain call (Or.inr (Or.inr member))).gentle

theorem bg_changesNothing {s₁ : State} (early : Adds (Call.Gentle s.children answers.error) s s₁) (quiet : Quiet s s₁)
    (possible : bg p answers s₁ ≠ .error .impossible) :
    ChangesNothing s answers (bg p answers s₁) ↔ answers.error ≠ none ∧ ∃ arg, p.args[1]? = some arg ∧
      (s.jobList.updateJobPid (s.jobPid arg) .running).1 = s.jobList := by
  constructor
  · intro ⟨s', run, kept, adds⟩
    obtain ⟨arg, args, jobList, _, _, front, late, trace, _⟩ := bg_ok run
    have killed := early.middle trace adds
    rw [jobPid_quiet quiet, quiet.jobList] at jobList
    exact ⟨killed, arg, args, jobList.symm.trans kept.jobList⟩
  · intro ⟨refused, arg, args, same⟩
    obtain ⟨_, s', run⟩ := returns_of_possible (bg_stops args) possible
    obtain ⟨arg', args', jobList, jid, children, front, late, trace, plain⟩ := bg_ok run
    obtain rfl := Option.some.inj (args.symm.trans args')
    rw [jobPid_quiet quiet, quiet.jobList, same] at jobList
    have kept : Quiet s s' := ⟨jobList, jid.trans quiet.jid, children.trans quiet.children⟩
    refine ⟨s', run, kept, trans_of (Adds _) early ⟨_, trace, ?_⟩⟩
    intro call member
    simp only [List.mem_append, List.mem_cons] at member plain
    rcases member with member | rfl | member
    · exact (plain call (Or.inl member)).gentle
    · exact refused
    · exact (plain call (Or.inr member)).gentle

/-- A line of `fg` or `bg` changes nothing exactly when the kernel refuses its signal and there
is nothing for it to wait for or to mark as running; whether its job is listed makes no
difference. -/
theorem jobCommand_changesNothing_iff
    (jobCommand : (lineArguments command).head? = some (text "fg") ∨ (lineArguments command).head? = some (text "bg"))
    (possible : beforeCheck command answers s ≠ .error .impossible) :
    ChangesNothing s answers (beforeCheck command answers s) ↔ FindsNothing s (lineArguments command) answers := by
  obtain ⟨stays, leaves⟩ := parseLine_arguments command
  unfold FindsNothing
  by_cases fits : (lineArguments command).length < argsSize
  · obtain ⟨p, parses, args, _⟩ := stays fits
    obtain ⟨s₁, parsed⟩ := parse_run parses s
    have early : Adds (Call.Gentle s.children answers.error) s s₁ := parse_adds (fun _ _ => trivial) _ parsed
    have quiet := parse_keeps record_quiet _ parsed
    have run : ∀ name, (lineArguments command).head? = some name →
        beforeCheck command answers s = runCommand p name answers s₁ := by
      intro name first
      obtain ⟨rest, list⟩ := List.head?_eq_some_iff.mp first
      refine (Run.seq parsed).trans ?_
      rw [args, list]
      simp [dispatch]
    rcases jobCommand with foreground | background
    · have same : beforeCheck command answers s = fg p answers s₁ := run _ foreground
      rw [same] at possible ⊢
      rw [fg_changesNothing early quiet possible, args, foreground]
      simp [fits, show ¬text "fg" = text "bg" by decide]
    · have same : beforeCheck command answers s = bg p answers s₁ := run _ background
      rw [same] at possible ⊢
      rw [bg_changesNothing early quiet possible, args, background]
      simp [fits, show ¬text "bg" = text "fg" by decide]
  · have same : beforeCheck command answers s = .error (.overflow ⟨argsSize⟩) :=
      Run.seq_error (parse_overflow (leaves (Nat.le_of_not_lt fits)) s)
    rw [same]
    refine iff_of_false ?_ (fun finds => fits finds.1)
    rintro ⟨_, impossible, _⟩
    cases impossible

def notPermitted : CString := text "Operation not permitted"

/-- An unknown job, and a kernel that does not let the shell signal process 1. -/
theorem jobCommand_changesNothing_bg :
    ChangesNothing (State.initial 1) { error := some notPermitted }
      (beforeCheck (text "bg %5\n") { error := some notPermitted } (State.initial 1)) := by
  refine (jobCommand_changesNothing_iff (by decide +kernel) (by decide +kernel)).mpr ?_
  have args : lineArguments (text "bg %5\n") = [text "bg", text "%5"] := by decide +kernel
  have unlisted : (State.initial 1).jobPid (text "%5") = -1 := by decide +kernel
  unfold FindsNothing
  rw [args]
  refine ⟨by decide, by simp, text "%5", rfl, fun _ => ?_, fun _ => ?_⟩
  · simp [State.initial]
  · rw [unlisted]
    rfl

/-- A shell with the job 1, which runs as the process 7. -/
def oneJob : State where
  jobList := JobList.init.addJob 1 7 .running (text "/bin/cat")
  jid := 2
  pgrp := 1
  children := {7}
  trace := []

/-- `fg` of a job that is not listed signals process 1 and reaps the child of the job that is;
`bg` without an argument reads a `NULL`. -/
theorem missing_job_signals_and_reaps :
    (5 : Int) ∉ oneJob.jobList.jids ∧ lineArguments (text "fg %5\n") = [text "fg", text "%5"] ∧ atoi (text "5") = 5 ∧
      traceOf (beforeCheck (text "fg %5\n") { waited := some (7, .exited 0) } oneJob) =
        some [.print .stderr (text "Job 5 not found\n"), .tcsetpgrp (-1), .kill 1 .sigcont,
          .waitpid (-1) fgOptions (some (7, .exited 0)), .tcsetpgrp 1] ∧
      ¬ChangesNothing oneJob { waited := some (7, .exited 0) }
        (beforeCheck (text "fg %5\n") { waited := some (7, .exited 0) } oneJob) ∧
      beforeCheck (text "bg\n") {} oneJob = .error .nullArgument := by
  have args : lineArguments (text "fg %5\n") = [text "fg", text "%5"] := by decide +kernel
  refine ⟨by decide, args, by decide +kernel, by decide +kernel, ?_, by decide +kernel⟩
  intro unchanged
  have finds := (jobCommand_changesNothing_iff (by decide +kernel) (by decide +kernel)).mp unchanged
  exact finds.2.1 rfl

end Cs1330.Shell
