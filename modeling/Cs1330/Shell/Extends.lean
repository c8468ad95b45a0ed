import Cs1330.Shell.Redirections

/-!
# The second shell extends the first

The second shell is the first one with jobs. On lines without an ampersand and without a job command, and
with programs that run to their end, all that it does besides is to move the terminal and the signals between
process groups, to print notices on `stdout` and to look for background jobs, of which there are none.
-/

namespace Cs1330.Shell

open Run (Simulates)

/-- The calls of a child that the first shell has too. -/
def ChildCall.shared : ChildCall → Bool
  | .setpgid | .tcsetpgrp _ | .defaultSignals => false
  | .close _ | .openFile _ _ | .execv _ _ | .print _ _ | .exit _ => true

/-- A call as the first shell makes it. That one prints nothing on `stdout`, and each of its `waitpid`s blocks. -/
def Call.forget : Call → Option Call
  | .print .stdout _ => none
  | .tcsetpgrp _ => none
  | .fork pid child => some (.fork pid (child.filter ChildCall.shared))
  | .waitpid target options result => if options.nohang = true then none else some (.waitpid target First.waitOptions result)
  | .print .stderr line => some (.print .stderr line)
  | .chdir path => some (.chdir path)
  | .link old new => some (.link old new)
  | .unlink path => some (.unlink path)
  | .kill target signal => some (.kill target signal)

def State.forget (s : State) : State := { s with trace := s.trace.filterMap Call.forget }

def Stop.forget : Stop → Stop
  | .exited code s => .exited code s.forget
  | .overflow write => .overflow write
  | .nullArgument => .nullArgument
  | .impossible => .impossible

/-- What `main` comes to, as the first shell has it. -/
def forgetResult : Except Stop (Unit × State) → Except Stop (Unit × State)
  | .ok (u, s) => .ok (u, s.forget)
  | .error stop => .error stop.forget

/-- `main`, from its first line to the end of the input. -/
def shellMain (lines : List Line) (killErrors : List (Option CString)) : ShellM Unit := do
  lines.forM fun line => executeCommand line.command line.answers
  cleanupJobList killErrors

/-- `main` of the first shell, which has nothing to clean up. -/
def First.shellMain (lines : List Line) : ShellM Unit :=
  lines.forM fun line => First.executeCommand line.command line.answers

/-- A line that is not about jobs, and whose program is not suspended. Behind it there is no child left that
the kernel could report. -/
structure Line.Plain (line : Line) : Prop where
  foreground : ∀ token ∈ tokens line.command, token ≠ text "&"
  command : ∀ name ∈ (lineArguments line.command).head?, name ≠ text "jobs" ∧ name ≠ text "fg" ∧ name ≠ text "bg"
  ended : ∀ pid status, line.answers.waited = some (pid, status) → First.waitOptions.allows status = true
  unreported : line.answers.reported = []

def NoJobs (s : State) : Prop := s.jobList = .init

/-- The second shell's part `x` does what the first shell's part `y` does. -/
abbrev Extends {α : Type} (x y : ShellM α) : Prop := Simulates State.forget Stop.forget NoJobs x y

variable {call call' : Call} {pid target : Int} {answers : Answers} {p : Parser} {name : CString}
  {result : Option (Int × Status)}

/-! ### Calls -/

theorem forget_record (s : State) (call : Call) :
    { s with trace := s.trace ++ [call] }.forget = { s.forget with trace := s.forget.trace ++ (call.forget).toList } := by
  unfold State.forget
  rw [List.filterMap_append]
  cases seen : call.forget <;> simp [seen]

theorem record_extends (seen : call.forget = some call') : Extends (record call) (record call') := by
  apply Simulates.of_modify
  · intro s
    rw [forget_record, seen]
    rfl
  · exact fun s none => none

theorem record_unseen (unseen : call.forget = none) : Extends (record call) (pure ()) := by
  apply Simulates.of_unseen
  · intro s _
    rw [forget_record, unseen]
    exact congrArg (fun trace => { s.forget with trace := trace }) (List.append_nil _)
  · exact fun s none => none

theorem setJobList_unseen : Extends (setJobList .init) (pure ()) := by
  apply Simulates.of_unseen
  · intro s none
    unfold State.forget
    rw [← none]
  · exact fun s none => rfl

theorem stderr_extends (line : CString) : Extends (print .stderr line) (print .stderr line) := record_extends rfl

theorem orPerror_extends (seen : call.forget = some call) (name : String) (error : Option CString) :
    Extends (orPerror call name error) (orPerror call name error) := by
  apply (record_extends seen).bind
  intro _
  cases error with
  | none => exact .of_pure _
  | some error => exact stderr_extends _

theorem fork_extends (pid : Int) (child : List ChildCall) :
    Extends (fork pid child) (fork pid (child.filter ChildCall.shared)) := by
  apply Simulates.of_each
  intro s _
  by_cases failed : pid = -1
  · refine ⟨record (.fork pid []), record (.fork pid []), ?_, ?_, record_extends rfl⟩
    · rw [fork, Run.seq_get, if_pos failed]
    · rw [fork, Run.seq_get, if_pos failed]
  · by_cases new : 0 < pid ∧ pid ∉ s.children
    · refine ⟨modify fun s => { s with children := insert pid s.children, trace := s.trace ++ [Call.fork pid child] },
        modify fun s => { s with
          children := insert pid s.children, trace := s.trace ++ [Call.fork pid (child.filter ChildCall.shared)] },
        ?_, ?_, .of_modify (fun s => ?_) fun s none => none⟩
      · rw [fork, Run.seq_get, if_neg failed, if_pos new]
        rfl
      · have new' : 0 < pid ∧ pid ∉ s.forget.children := new
        rw [fork, Run.seq_get, if_neg failed, if_pos new']
        rfl
      · exact forget_record { s with children := insert pid s.children } (.fork pid child)
    · refine ⟨throw .impossible, throw .impossible, ?_, ?_, .of_throw rfl⟩
      · rw [fork, Run.seq_get, if_neg failed, if_neg new]
      · have new' : ¬(0 < pid ∧ pid ∉ s.forget.children) := new
        rw [fork, Run.seq_get, if_neg failed, if_neg new']

/-- The kernel can give the two shells the same results for a program that is not suspended. -/
theorem mayReport_forget (s : State) {options : WaitOptions} (blocks : options.nohang = false)
    (ended : ∀ pid status, result = some (pid, status) → First.waitOptions.allows status = true) :
    s.forget.mayReport target First.waitOptions result ↔ s.mayReport target options result := by
  cases result with
  | none =>
    simp only [State.mayReport, blocks, First.waitOptions]
    rfl
  | some report =>
    obtain ⟨pid, status⟩ := report
    have allowed := ended pid status rfl
    have allowed' : options.allows status = true := by
      cases status with
      | exited code => rfl
      | signaled signal => rfl
      | stopped signal => cases allowed
      | continued => cases allowed
    simp only [State.mayReport, allowed, allowed']
    rfl

theorem waitpid_extends {options : WaitOptions} (blocks : options.nohang = false)
    (ended : ∀ pid status, result = some (pid, status) → First.waitOptions.allows status = true) :
    Extends (waitpid target options result) (waitpid target First.waitOptions result) := by
  apply Simulates.of_each
  intro s _
  by_cases can : s.mayReport target options result
  · have can' := (mayReport_forget s blocks ended).mpr can
    refine ⟨modify fun s => { s with
        children := unreaped s.children result, trace := s.trace ++ [Call.waitpid target options result] },
      modify fun s => { s with
        children := unreaped s.children result, trace := s.trace ++ [Call.waitpid target First.waitOptions result] },
      ?_, ?_, .of_modify (fun s => ?_) fun s none => none⟩
    · rw [waitpid, Run.seq_get, if_pos can]
      rfl
    · rw [waitpid, Run.seq_get, if_pos can']
      rfl
    · have seen : (Call.waitpid target options result).forget = some (.waitpid target First.waitOptions result) :=
        if_neg (by simp [blocks])
      rw [forget_record { s with children := unreaped s.children result }, seen]
      rfl
  · have can' := mt (mayReport_forget s blocks ended).mp can
    refine ⟨throw .impossible, throw .impossible, ?_, ?_, .of_throw rfl⟩
    · rw [waitpid, Run.seq_get, if_neg can]
    · rw [waitpid, Run.seq_get, if_neg can']

theorem checkBackgroundJob_unseen : Extends (checkBackgroundJob []) (pure ()) := by
  apply Simulates.of_each
  intro s _
  refine ⟨record (.waitpid (-1) checkOptions none), pure (), ?_, rfl, record_unseen rfl⟩
  have nobody : s.mayReport (-1) checkOptions none := Or.inl rfl
  rw [checkBackgroundJob, waitpid, Run.seq_get, if_pos nobody]
  rfl

theorem cleanupJobList_unseen (killErrors : List (Option CString)) : Extends (cleanupJobList killErrors) (pure ()) := by
  apply Simulates.of_each
  intro s none
  refine ⟨setJobList .init, pure (), ?_, rfl, setJobList_unseen⟩
  have empty : s.jobList = .init := none
  rw [cleanupJobList, Run.seq_get, empty]
  rfl

theorem exit_extends (code : Int) : Extends (exit code) (exit code) := by
  apply Simulates.of_each
  intro s _
  exact ⟨throw (.exited code s), throw (.exited code s.forget), rfl, rfl, .of_throw rfl⟩

/-! ### The commands of both shells -/

theorem argument_extends (p : Parser) (i : Nat) : Extends (argument p i) (First.argument p.forget i) := by
  have same : First.argument p.forget i = argument p i := rfl
  rw [same]
  unfold argument
  split
  · exact .of_pure _
  · exact .of_throw rfl

theorem oneArgument_extends {change : CString → Call} (seen : ∀ path, (change path).forget = some (change path))
    (name : String) (p : Parser) (answers : Answers) :
    Extends (oneArgument name change p answers) (First.oneArgument name change p.forget answers) := by
  unfold oneArgument First.oneArgument
  by_cases wrong : p.argCount ≠ 2
  · have wrong' : p.forget.argCount ≠ 2 := wrong
    rw [if_pos wrong, if_pos wrong']
    exact stderr_extends _
  · have right' : ¬p.forget.argCount ≠ 2 := wrong
    rw [if_neg wrong, if_neg right']
    exact (argument_extends p 1).bind fun path => orPerror_extends (seen path) _ _

theorem ln_extends (p : Parser) (answers : Answers) : Extends (ln p answers) (First.ln p.forget answers) := by
  unfold ln First.ln
  by_cases wrong : p.argCount ≠ 3
  · have wrong' : p.forget.argCount ≠ 3 := wrong
    rw [if_pos wrong, if_pos wrong']
    exact stderr_extends _
  · have right' : ¬p.forget.argCount ≠ 3 := wrong
    rw [if_neg wrong, if_neg right']
    exact (argument_extends p 1).bind fun old => (argument_extends p 2).bind fun new => orPerror_extends rfl _ _

/-! ### Launching a program -/

/-- A child of the second shell makes the calls of a child of the first, and three kinds besides. -/
theorem childCalls_shared (p : Parser) (name : CString) (pid : Int) (answers : ChildAnswers) :
    (childCalls p name pid answers).filter ChildCall.shared = First.childCalls p.forget name answers := by
  have start : (ChildCall.setpgid :: if p.isBgJob = 0 then [.tcsetpgrp pid] else []).filter ChildCall.shared = [] := by
    split <;> rfl
  have input : (if p.inputRedir ≠ 0 then [ChildCall.close 0, .openFile p.inputFile .read] else []).filter ChildCall.shared =
      if p.inputRedir ≠ 0 then [ChildCall.close 0, .openFile p.inputFile .read] else [] := by
    split <;> rfl
  have output : ∀ modes : List OpenMode,
      (if p.outputRedir ≠ 0 then ChildCall.close 1 :: modes.map (.openFile p.outputFile) else []).filter ChildCall.shared =
        if p.outputRedir ≠ 0 then ChildCall.close 1 :: modes.map (.openFile p.outputFile) else [] := by
    intro modes
    rw [List.filter_eq_self]
    intro call member
    split at member
    · rcases List.mem_cons.mp member with rfl | member
      · rfl
      · obtain ⟨mode, _, rfl⟩ := List.mem_map.mp member
        rfl
    · cases member
  have fails : ∀ (file : Option CString) (error : CString),
      [ChildCall.print .stderr (perrorText file error), .exit 1].filter ChildCall.shared =
        [.print .stderr (perrorText file error), .exit 1] := fun _ _ => rfl
  have execv : [ChildCall.defaultSignals, .execv name p.args].filter ChildCall.shared = [.execv name p.args] := rfl
  unfold childCalls First.childCalls
  dsimp +instances only [Parser.forget]
  generalize (if p.inputRedir ≠ 0 then answers.input else none) = inputError
  generalize (if p.outputRedir = 1 then [OpenMode.truncate] else if p.outputRedir = 2 then [.append] else []) = modes
  generalize (if modes ≠ [] then answers.output else none) = outputError
  cases inputError with
  | some error => simp only [List.filter_append, start, input, fails, List.nil_append]
  | none =>
    cases outputError with
    | some error => simp only [List.filter_append, start, input, output, fails, List.nil_append]
    | none =>
      cases answers.execv with
      | some error => simp only [List.filter_append, start, input, output, execv, fails, List.nil_append]
      | none => simp only [List.filter_append, start, input, output, execv, List.nil_append]

theorem handleLaunched_unseen (ended : ∀ pid status, result = some (pid, status) → First.waitOptions.allows status = true)
    (name : CString) : Extends (handleLaunched name result) (pure ()) := by
  cases result with
  | none => exact .of_pure _
  | some report =>
    obtain ⟨pid, status⟩ := report
    have allowed := ended pid status rfl
    cases status with
    | exited code => exact .of_pure _
    | signaled signal =>
      apply (record_unseen rfl).before
      apply Simulates.of_each
      intro s none
      have empty : s.jobList = .init := none
      refine ⟨setJobList .init, pure (), ?_, rfl, setJobList_unseen⟩
      rw [Run.seq_get, empty]
      rfl
    | stopped signal => cases allowed
    | continued => cases allowed

theorem takeTerminal_unseen : Extends takeTerminal (pure ()) := by
  apply Simulates.of_each
  intro s _
  exact ⟨record (.tcsetpgrp s.pgrp), pure (), rfl, rfl, record_unseen rfl⟩

theorem launch_extends (foreground : p.isBgJob = 0)
    (ended : ∀ pid status, answers.waited = some (pid, status) → First.waitOptions.allows status = true) (name : CString) :
    Extends (launch p name answers) (First.launch p.forget name answers) := by
  unfold launch First.launch
  rw [← childCalls_shared p name answers.forked]
  simp only [if_pos foreground]
  apply (fork_extends _ _).bind
  intro _
  apply (waitpid_extends rfl ended).after
  exact (handleLaunched_unseen ended name).before takeTerminal_unseen

theorem runCommand_extends (foreground : p.isBgJob = 0)
    (ended : ∀ pid status, answers.waited = some (pid, status) → First.waitOptions.allows status = true)
    (known : name ≠ text "jobs" ∧ name ≠ text "fg" ∧ name ≠ text "bg") :
    Extends (runCommand p name answers) (First.runCommand p.forget name answers) := by
  obtain ⟨notJobs, notFg, notBg⟩ := known
  unfold runCommand First.runCommand
  rw [if_neg notJobs, if_neg notFg, if_neg notBg]
  split
  · exact oneArgument_extends (fun _ => rfl) _ p answers
  · split
    · exact ln_extends p answers
    · split
      · exact oneArgument_extends (fun _ => rfl) _ p answers
      · split
        · exact (cleanupJobList_unseen answers.killErrors).before (exit_extends 0)
        · exact launch_extends foreground ended name

/-! ### Lines and sessions -/

theorem parseLine_foreground {command : CString} (foreground : ∀ token ∈ tokens command, token ≠ text "&")
    (parsed : parseLine command = .ok p) : p.isBgJob = 0 := by
  unfold parseLine parseCommand at parsed
  obtain ⟨last, loop, finish⟩ := Run.except_bind parsed
  have noAmpersand : ∀ token ∈ tokens command, ampersand token = false := by
    intro token member
    simpa [ampersand] using foreground token member
  have untouched := Parser.foldlM_background _ _ _ noAmpersand loop
  have nothing : last.ampPos = none ∧ last.isBgJob = 0 := ⟨congrArg Prod.fst untouched, congrArg Prod.snd untouched⟩
  unfold Parser.finish at finish
  split at finish
  · obtain rfl := Except.ok.inj finish
    rw [nothing.1, if_neg (by simp)]
    exact nothing.2
  · cases finish

theorem parsed_arguments {command : CString} (parsed : parseLine command = .ok p) : p.args = lineArguments command := by
  obtain ⟨fits, overflows⟩ := parseLine_arguments command
  by_cases few : (lineArguments command).length < argsSize
  · obtain ⟨q, parsed', args, _⟩ := fits few
    obtain rfl := Except.ok.inj (parsed.symm.trans parsed')
    exact args
  · cases parsed.symm.trans (overflows (not_lt.mp few))

theorem executeCommand_extends {line : Line} (plain : line.Plain) :
    Extends (executeCommand line.command line.answers) (First.executeCommand line.command line.answers) := by
  have both := (parseCommand_extends line.command 0 0 0 0).1 plain.foreground
  unfold executeCommand First.executeCommand parse First.parse First.parseLine
  cases parsed : parseLine line.command with
  | error write =>
    unfold parseLine at parsed
    rw [parsed] at both
    rw [← show Except.error write = _ from both]
    exact .of_throw rfl
  | ok p =>
    have parsed' := parsed
    unfold parseLine at parsed'
    rw [parsed'] at both
    rw [← show Except.ok p.forget = _ from both]
    simp only [bind_assoc, pure_bind]
    apply (Simulates.forM fun message _ => stderr_extends message.text).bind
    intro _
    cases args : p.args with
    | nil =>
      have args' : p.forget.args = [] := args
      rw [args', plain.unreported]
      exact checkBackgroundJob_unseen
    | cons name rest =>
      have args' : p.forget.args = name :: rest := args
      rw [args', plain.unreported]
      have known := plain.command name (by rw [← parsed_arguments parsed, args]; rfl)
      have foreground := parseLine_foreground plain.foreground parsed
      exact (runCommand_extends foreground plain.ended known).after checkBackgroundJob_unseen

/-- The second shell makes the calls of the first in the same order, up to what jobs need, and it ends as
the first does. -/
theorem shellMain_extends (pgrp : Int) (killErrors : List (Option CString)) {lines : List Line}
    (plain : ∀ line ∈ lines, line.Plain) :
    forgetResult (shellMain lines killErrors (.initial pgrp)) = First.shellMain lines (.initial pgrp) := by
  have loop : Extends (shellMain lines killErrors) (First.shellMain lines) :=
    (Simulates.forM fun line member => executeCommand_extends (plain line member)).after (cleanupJobList_unseen killErrors)
  have none : NoJobs (.initial pgrp) := rfl
  have start : (State.initial pgrp).forget = .initial pgrp := rfl
  cases run : shellMain lines killErrors (.initial pgrp) with
  | ok result =>
    obtain ⟨run', _⟩ := loop.returns none run
    rw [start] at run'
    exact run'.symm
  | error stop =>
    have run' := loop.stops none run
    rw [start] at run'
    exact run'.symm

/-- A program that is killed, a redirection that is reported and a file that cannot be removed. -/
def killedSession : List Line :=
  [⟨text "cat < f < g\n", { forked := 7, waited := some (7, .signaled 11) }⟩,
    ⟨text "rm g\n", { error := some (text "No such file or directory") }⟩]

theorem shellMain_extends_killed : ∃ s, shellMain killedSession [] (.initial 3) = .ok ((), s) ∧ s.trace.length = 9 ∧
    First.shellMain killedSession (.initial 3) = .ok ((), s.forget) ∧ s.forget.trace.length = 5 := by
  have plain : ∀ line ∈ killedSession, line.Plain := by
    intro line member
    simp only [killedSession, List.mem_cons, List.not_mem_nil, or_false] at member
    rcases member with rfl | rfl
    · refine ⟨by decide +kernel, by decide +kernel, ?_, rfl⟩
      rintro pid status waited
      cases waited
      rfl
    · refine ⟨by decide +kernel, by decide +kernel, ?_, rfl⟩
      rintro pid status waited
      cases waited
  have same := shellMain_extends 3 [] plain
  have lengths : (shellMain killedSession [] (.initial 3)).map
      (fun result => (result.2.trace.length, result.2.forget.trace.length)) = .ok (9, 5) := by decide +kernel
  cases run : shellMain killedSession [] (.initial 3) with
  | error stop =>
    rw [run] at lengths
    cases lengths
  | ok result =>
    rw [run] at same lengths
    obtain ⟨long, short⟩ := Prod.mk.inj (Except.ok.inj lengths)
    exact ⟨result.2, rfl, long, same.symm, short⟩

end Cs1330.Shell
