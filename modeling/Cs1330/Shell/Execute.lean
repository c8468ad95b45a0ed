import Mathlib.Data.Finset.Basic
import Cs1330.Lib.Transition
import Cs1330.Shell.Parse
import Cs1330.Shell.Jobs

/-!
# Executing a command line

`execute_command` of the second shell. The kernel is asked for the result of every call: the
answers for a line are an input, an answer that the kernel cannot give makes the line impossible,
and every call and every print is kept in a trace. The children of a shell are the processes it
has forked and that `waitpid` has not reported as exited or signaled yet.
-/

namespace Cs1330.Shell

/-! ### The kernel -/

inductive Status where
  | exited (code : Int)
  | signaled (signal : Int)
  | stopped (signal : Int)
  | continued
  deriving DecidableEq, Repr

structure WaitOptions where
  nohang : Bool
  untraced : Bool
  continued : Bool
  deriving DecidableEq, Repr

/-- The options ask for the status. -/
def WaitOptions.allows (options : WaitOptions) : Status → Bool
  | .exited _ | .signaled _ => true
  | .stopped _ => options.untraced
  | .continued => options.continued

inductive Stream where
  | stdout | stderr
  deriving DecidableEq, Repr

inductive Signal where
  | sigcont | sigkill
  deriving DecidableEq, Repr

inductive OpenMode where
  /-- `O_RDONLY` -/
  | read
  /-- `O_WRONLY | O_CREAT | O_TRUNC` -/
  | truncate
  /-- `O_WRONLY | O_CREAT | O_APPEND` -/
  | append
  deriving DecidableEq, Repr

/-- What a forked child does up to its `execv` or `exit`. -/
inductive ChildCall where
  | setpgid
  | tcsetpgrp (group : Int)
  | close (fd : Int)
  | openFile (path : Option CString) (mode : OpenMode)
  /-- `SIG_DFL` for `SIGINT`, `SIGTSTP` and `SIGTTOU` -/
  | defaultSignals
  | execv (path : CString) (args : List CString)
  | print (stream : Stream) (line : CString)
  | exit (code : Int)
  deriving DecidableEq, Repr

inductive Call where
  | print (stream : Stream) (line : CString)
  | chdir (path : CString)
  | link (old new : CString)
  | unlink (path : CString)
  | tcsetpgrp (group : Int)
  | kill (target : Int) (signal : Signal)
  | fork (pid : Int) (child : List ChildCall)
  | waitpid (target : Int) (options : WaitOptions) (result : Option (Int × Status))
  deriving DecidableEq, Repr

/-- Why the calls of a child failed, if they did, in the words of `strerror`. -/
structure ChildAnswers where
  input : Option CString := none
  output : Option CString := none
  execv : Option CString := none
  deriving DecidableEq, Repr

/-- The results of the calls made for one line. -/
structure Answers where
  /-- the pid from `fork`, -1 when it fails -/
  forked : Int := -1
  child : ChildAnswers := {}
  /-- the result of the `waitpid` for the foreground process, `none` when it is not positive -/
  waited : Option (Int × Status) := none
  /-- the positive results of the `waitpid`s of `check_background_job` -/
  reported : List (Int × Status) := []
  /-- why `chdir`, `link`, `unlink` or `kill` failed, if it did -/
  error : Option CString := none
  /-- the same for each `kill` of `cleanup_job_list` -/
  killErrors : List (Option CString) := []
  /-- the line of `jobs` that cannot be printed -/
  unprinted : Option Nat := none
  deriving DecidableEq, Repr

structure State where
  jobList : JobList
  jid : Int
  /-- `getpgrp()` -/
  pgrp : Int
  children : Finset Int
  trace : List Call
  deriving DecidableEq

def State.initial (pgrp : Int) : State := ⟨.init, 1, pgrp, ∅, []⟩

inductive Stop where
  | overflow (write : Overflow)
  /-- a `NULL` of `args` was read as a string -/
  | nullArgument
  /-- the kernel does not give this answer -/
  | impossible
  | exited (code : Int) (s : State)
  deriving DecidableEq

abbrev ShellM := StateT State (Except Stop)

def record (call : Call) : ShellM Unit := modify fun s => { s with trace := s.trace ++ [call] }

def print (stream : Stream) (line : CString) : ShellM Unit := record (.print stream line)

/-- An error message that does not end the command. -/
def complain (wrong : Bool) (line : CString) : ShellM Unit := if wrong then print .stderr line else pure ()

def perrorText (name : Option CString) (error : CString) : CString :=
  match name with
  | some name => name ++ text ": " ++ error ++ text "\n"
  | none => error ++ text "\n"

/-- A call whose failure is reported with `perror`. -/
def orPerror (call : Call) (name : String) (error : Option CString) : ShellM Unit := do
  record call
  match error with
  | some error => print .stderr (perrorText (some (text name)) error)
  | none => pure ()

def setJobList (jobList : JobList) : ShellM Unit := modify fun s => { s with jobList := jobList }

/-- The pid is new among the children, or the call failed. -/
def fork (pid : Int) (child : List ChildCall) : ShellM Unit := do
  let s ← get
  if pid = -1 then record (.fork pid [])
  else if 0 < pid ∧ pid ∉ s.children then
    set { s with children := insert pid s.children, trace := s.trace ++ [Call.fork pid child] }
  else throw .impossible

def State.waitsFor (target pid : Int) : Bool := target == -1 || target == pid

/-- A call that may block fails only when there is no child to wait for. -/
def State.mayReport (s : State) (target : Int) (options : WaitOptions) : Option (Int × Status) → Prop
  | some (pid, status) => pid ∈ s.children ∧ waitsFor target pid = true ∧ options.allows status = true
  | none => options.nohang = true ∨ ∀ pid ∈ s.children, waitsFor target pid = false

instance State.decidableMayReport (s : State) (target : Int) (options : WaitOptions) :
    ∀ result, Decidable (s.mayReport target options result)
  | some (_, _) => inferInstanceAs (Decidable (_ ∧ _))
  | none => inferInstanceAs (Decidable (_ ∨ _))

/-- A child is gone once it was reported as exited or signaled. -/
def unreaped (children : Finset Int) : Option (Int × Status) → Finset Int
  | some (pid, .exited _) | some (pid, .signaled _) => children.erase pid
  | some (_, .stopped _) | some (_, .continued) | none => children

def waitpid (target : Int) (options : WaitOptions) (result : Option (Int × Status)) : ShellM Unit := do
  let s ← get
  if s.mayReport target options result then
    set { s with
      children := unreaped s.children result
      trace := s.trace ++ [Call.waitpid target options result] }
  else throw .impossible

/-! ### The commands -/

def cleanupJobList (killErrors : List (Option CString)) : ShellM Unit := do
  let s ← get
  (s.jobList.elements.zipIdx).forM fun (cur, i) =>
    orPerror (.kill (-cur.pid) .sigkill) "kill" (killErrors.getD i none)
  setJobList .init

def exit (code : Int) : ShellM Unit := do
  throw (.exited code (← get))

def checkOptions : WaitOptions := ⟨true, true, true⟩

/-- The body of the loop of `check_background_job`. -/
def handleReport (curPid : Int) (status : Status) : ShellM Unit := do
  let jobList := (← get).jobList
  let curJid := jobList.getJobJid curPid
  match status with
  | .exited code =>
    print .stdout (text s!"[{curJid}] ({curPid}) terminated with exit status {code}\n")
    setJobList (jobList.removeJobPid curPid).1
  | .signaled signal =>
    print .stdout (text s!"[{curJid}] ({curPid}) terminated by signal {signal}\n")
    setJobList (jobList.removeJobPid curPid).1
  | .stopped signal =>
    setJobList (jobList.updateJobPid curPid .stopped).1
    print .stdout (text s!"[{curJid}] ({curPid}) suspended by signal {signal}\n")
  | .continued =>
    setJobList (jobList.updateJobPid curPid .running).1
    print .stdout (text s!"[{curJid}] ({curPid}) resumed\n")

def checkBackgroundJob : List (Int × Status) → ShellM Unit
  | [] => waitpid (-1) checkOptions none
  | (curPid, status) :: rest => do
    waitpid (-1) checkOptions (some (curPid, status))
    handleReport curPid status
    checkBackgroundJob rest

/-- `args[i]`, read as a string. -/
def argument (p : Parser) (i : Nat) : ShellM CString :=
  match p.args[i]? with
  | some arg => pure arg
  | none => throw .nullArgument

/-- A built-in command that makes one call with its only argument. -/
def oneArgument (name : String) (call : CString → Call) (p : Parser) (answers : Answers) : ShellM Unit :=
  if p.argCount ≠ 2 then print .stderr (text s!"{name}: syntax error\n")
  else do orPerror (call (← argument p 1)) name answers.error

def cd : Parser → Answers → ShellM Unit := oneArgument "cd" .chdir

def rm : Parser → Answers → ShellM Unit := oneArgument "rm" .unlink

def ln (p : Parser) (answers : Answers) : ShellM Unit :=
  if p.argCount ≠ 3 then print .stderr (text "ln: syntax error\n")
  else do orPerror (.link (← argument p 1) (← argument p 2)) "ln" answers.error

/-- The loop of `jobs`, from the line `i` on. -/
def printJobs (answers : Answers) : List Job → Nat → ShellM Unit
  | [], _ => pure ()
  | cur :: rest, i =>
    if answers.unprinted = some i then do
      print .stderr (text "error printing jobs list\n")
      cleanupJobList answers.killErrors
      exit 1
    else do
      print .stdout (JobList.describe cur)
      printJobs answers rest (i + 1)

def jobs (answers : Answers) : ShellM Unit := do
  printJobs answers (← get).jobList.elements 0

/-- The start of `fg` and `bg`: the jid that the argument names and its pid. Both errors are
reported, and then passed over. -/
def namedJob (name : String) (p : Parser) : ShellM (Int × Int) := do
  complain (p.argCount != 2) (text s!"{name}: syntax error\n")
  let jid := atoi (← argument p 1).tail
  let pid := (← get).jobList.getJobPid jid
  complain (pid == -1) (text s!"Job {jid} not found\n")
  return (jid, pid)

def handleForeground (fgJid fgPid : Int) (result : Option (Int × Status)) : ShellM Unit := do
  let jobList := (← get).jobList
  match result with
  | some (_, .stopped signal) =>
    setJobList (jobList.updateJobPid fgPid .stopped).1
    print .stdout (text s!"[{fgJid}] ({fgPid}) suspended by signal {signal}\n")
  | some (_, .exited _) => setJobList (jobList.removeJobPid fgPid).1
  | some (_, .signaled signal) =>
    print .stderr (text s!"({fgPid}) terminated by signal {signal}\n")
    setJobList (jobList.removeJobPid fgPid).1
  | some (_, .continued) | none => pure ()

def takeTerminal : ShellM Unit := do
  record (.tcsetpgrp (← get).pgrp)

def fg (p : Parser) (answers : Answers) : ShellM Unit := do
  let (fgJid, fgPid) ← namedJob "fg" p
  record (.tcsetpgrp fgPid)
  orPerror (.kill (-fgPid) .sigcont) "kill(SIGCONT)" answers.error
  waitpid fgPid ⟨false, true, false⟩ answers.waited
  handleForeground fgJid fgPid answers.waited
  takeTerminal

def bg (p : Parser) (answers : Answers) : ShellM Unit := do
  let (_, bgPid) ← namedJob "bg" p
  orPerror (.kill (-bgPid) .sigcont) "kill(SIGCONT)" answers.error
  setJobList ((← get).jobList.updateJobPid bgPid .running).1

/-! ### Launching a program -/

/-- The branch `pid == 0`. A failed `open` ends the child. -/
def childCalls (p : Parser) (name : CString) (pid : Int) (answers : ChildAnswers) : List ChildCall :=
  let start := .setpgid :: if p.isBgJob = 0 then [.tcsetpgrp pid] else []
  let input := if p.inputRedir ≠ 0 then [.close 0, .openFile p.inputFile .read] else []
  let outputMode : List OpenMode :=
    if p.outputRedir = 1 then [.truncate] else if p.outputRedir = 2 then [.append] else []
  let output := if p.outputRedir ≠ 0 then .close 1 :: outputMode.map (.openFile p.outputFile) else []
  let execv := [.defaultSignals, .execv name p.args]
  let fails (file : Option CString) (error : CString) := [.print .stderr (perrorText file error), .exit 1]
  match (if p.inputRedir ≠ 0 then answers.input else none),
      (if outputMode ≠ [] then answers.output else none), answers.execv with
  | some error, _, _ => start ++ input ++ fails p.inputFile error
  | none, some error, _ => start ++ input ++ output ++ fails p.outputFile error
  | none, none, some error => start ++ input ++ output ++ execv ++ fails (some (text "execv")) error
  | none, none, none => start ++ input ++ output ++ execv

/-- `add_job(job_list, jid, pid, state, command)` and, behind the print, `jid++`. -/
def addNewJob (pid : Int) (state : ProcessState) (command : CString) (line : Int → String) : ShellM Unit := do
  let s ← get
  setJobList (s.jobList.addJob s.jid pid state command)
  print .stdout (text (line s.jid))
  modify fun s => { s with jid := Machine.wrap 32 (s.jid + 1) }

/-- What the parent does with the status of a foreground process. -/
def handleLaunched (command : CString) : Option (Int × Status) → ShellM Unit
  | some (curPid, .signaled signal) => do
    print .stdout (text s!"({curPid}) terminated by signal {signal}\n")
    setJobList ((← get).jobList.removeJobPid curPid).1
  | some (curPid, .stopped signal) =>
    addNewJob curPid .stopped command fun jid => s!"[{jid}] ({curPid}) suspended by signal {signal}\n"
  -- the call asks for `WCONTINUED`, but no branch follows for it
  | some (_, .exited _) | some (_, .continued) | none => pure ()

def launch (p : Parser) (command : CString) (answers : Answers) : ShellM Unit := do
  let pid := answers.forked
  fork pid (childCalls p command pid answers.child)
  if p.isBgJob = 0 then
    waitpid pid ⟨false, true, true⟩ answers.waited
    handleLaunched command answers.waited
    takeTerminal
  else addNewJob pid .running command fun jid => s!"[{jid}] ({pid})\n"

def runCommand (p : Parser) (command : CString) (answers : Answers) : ShellM Unit :=
  if command = text "cd" then cd p answers
  else if command = text "ln" then ln p answers
  else if command = text "rm" then rm p answers
  else if command = text "exit" then do
    cleanupJobList answers.killErrors
    exit 0
  else if command = text "jobs" then jobs answers
  else if command = text "fg" then fg p answers
  else if command = text "bg" then bg p answers
  else launch p command answers

def parse (command : CString) : ShellM Parser :=
  match parseLine command with
  | .error write => throw (.overflow write)
  | .ok p => do
    p.messages.forM fun message => print .stderr message.text
    return p

def executeCommand (command : CString) (answers : Answers) : ShellM Unit := do
  let p ← parse command
  match p.args with
  | [] => checkBackgroundJob answers.reported
  | name :: _ => do
    runCommand p name answers
    checkBackgroundJob answers.reported

/-! ### Runs -/

/-- A line of input and the answers of the kernel while it is executed. -/
structure Line where
  command : CString
  answers : Answers
  deriving DecidableEq, Repr

/-- A round of the loop in `main`, from one return of `execute_command` to the next. -/
def State.step (s : State) (line : Line) : Except Stop (Option State) :=
  match executeCommand line.command line.answers s with
  | .ok (_, s') => .ok (some s')
  | .error .impossible | .error (.exited _ _) => .ok none
  | .error stop => .error stop

abbrev Reachable (pgrp : Int) (ok : State → Line → Prop) : State → Prop :=
  Transition.Reachable State.step (State.initial pgrp) ok

end Cs1330.Shell
