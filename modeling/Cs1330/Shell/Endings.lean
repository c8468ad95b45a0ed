import Cs1330.Shell.Terminal

/-!
# The end of the shell

`exit`, the end of the input and a job list that cannot be printed end the shell with
`cleanup_job_list`, which calls `kill` with `SIGKILL` for the process group of each job. These are the
children of the shell, once each; whether such a group is there already is a matter of the child.
-/

namespace Cs1330.Shell

open Run (Keeps Stops)

variable {s s' s'' : State} {u : Unit} {p : Parser} {answers : Answers}

/-- The pids whose process groups are killed. -/
def killed (calls : List Call) : List Int :=
  calls.filterMap fun
    | .kill target .sigkill => some (-target)
    | _ => none

theorem killed_append (calls more : List Call) : killed (calls ++ more) = killed calls ++ killed more :=
  List.filterMap_append

/-- How the shell ends: `fgets` has returned `NULL`, or a line does not return. -/
inductive Ends (s : State) : State → Prop
  | endOfInput {s' : State} (killErrors : List (Option CString)) (run : cleanupJobList killErrors s = .ok ((), s')) :
      Ends s s'
  | exits {s' : State} (line : Line) (code : Int)
      (run : executeCommand line.command line.answers s = .error (.exited code s')) : Ends s s'

/-! ### `cleanup_job_list` -/

theorem orPerror_run (call : Call) (name : String) (error : Option CString) (s : State) :
    ∃ s', orPerror call name error s = .ok ((), s') ∧ s'.jobList = s.jobList ∧
      killed s'.trace = killed s.trace ++ killed [call] := by
  cases error with
  | none => exact ⟨_, rfl, rfl, killed_append _ _⟩
  | some error =>
    refine ⟨_, rfl, rfl, ?_⟩
    show killed (s.trace ++ [call] ++ [_]) = _
    rw [killed_append, killed_append]
    exact List.append_nil _

/-- The loop of `cleanup_job_list` over the elements and their positions. -/
def killGroups (killErrors : List (Option CString)) (elements : List (Job × Nat)) : ShellM Unit :=
  elements.forM fun element => orPerror (.kill (-element.1.pid) .sigkill) "kill" (killErrors.getD element.2 none)

theorem killGroups_run (killErrors : List (Option CString)) (elements : List (Job × Nat)) (s : State) :
    ∃ s', killGroups killErrors elements s = .ok ((), s') ∧
      killed s'.trace = killed s.trace ++ elements.map (·.1.pid) := by
  induction elements generalizing s with
  | nil => exact ⟨s, rfl, (List.append_nil _).symm⟩
  | cons element elements ih =>
    obtain ⟨cur, i⟩ := element
    obtain ⟨s₁, first, _, sent⟩ := orPerror_run (.kill (-cur.pid) .sigkill) "kill" (killErrors.getD i none) s
    obtain ⟨s₂, rest, more⟩ := ih s₁
    refine ⟨s₂, (Run.seq first).trans rest, ?_⟩
    have one : killed [.kill (-cur.pid) .sigkill] = [cur.pid] := by simp [killed]
    rw [more, sent, one, List.append_assoc]
    rfl

theorem cleanupJobList_run (killErrors : List (Option CString)) (s : State) :
    ∃ s', cleanupJobList killErrors s = .ok ((), s') ∧ s'.jobList = .init ∧
      killed s'.trace = killed s.trace ++ s.jobList.pids := by
  obtain ⟨s₁, run, sent⟩ := killGroups_run killErrors s.jobList.elements.zipIdx s
  refine ⟨{ s₁ with jobList := .init }, ?_, rfl, ?_⟩
  · unfold cleanupJobList
    rw [Run.seq_get]
    exact Run.seq run
  · show killed s₁.trace = _
    have pids : s.jobList.elements.zipIdx.map (·.1.pid) = (s.jobList.elements.zipIdx.map Prod.fst).map (·.pid) := by
      rw [List.map_map]
      rfl
    rw [sent, pids, List.zipIdx_map_fst]
    rfl

/-! ### Lines that do not return -/

/-- A part of the program that ends the shell does so with `cleanup_job_list`. -/
def Closes (x : ShellM Unit) : Prop :=
  ∀ ⦃s code s'⦄, x s = .error (.exited code s') → s'.jobList = .init ∧ killed s'.trace = killed s.trace ++ s.jobList.pids

def Survives (stop : Stop) : Prop := ∀ code s, stop ≠ .exited code s

theorem Survives.closes {x : ShellM Unit} (survives : Stops Survives x) : Closes x := by
  intro s code s' run
  exact (survives run code s' rfl).elim

theorem impossible_survives {α : Type} {x : ShellM α} (stops : Stops Impossible x) : Stops Survives x := by
  intro s stop run code s' same
  obtain rfl := stops run
  cases same

theorem argument_survives (p : Parser) (i : Nat) : Stops Survives (argument p i) := by
  intro s stop run code s' same
  unfold argument at run
  cases found : p.args[i]? with
  | some arg =>
    rw [found] at run
    cases run
  | none =>
    rw [found] at run
    cases run
    cases same

theorem record_survives (call : Call) : Stops Survives (record call) := .of_modify _

theorem oneArgument_survives (name : String) (call : CString → Call) (p : Parser) (answers : Answers) :
    Stops Survives (oneArgument name call p answers) := by
  unfold oneArgument
  split
  · exact record_survives _
  · exact (argument_survives p 1).bind fun _ => impossible_survives (orPerror_stops _ _ _)

theorem ln_survives (p : Parser) (answers : Answers) : Stops Survives (ln p answers) := by
  unfold ln
  split
  · exact record_survives _
  · exact (argument_survives p 1).bind fun _ => (argument_survives p 2).bind fun _ =>
      impossible_survives (orPerror_stops _ _ _)

theorem namedJob_survives (name : String) (p : Parser) : Stops Survives (namedJob name p) :=
  (impossible_survives (complain_stops _ _)).bind fun _ => (argument_survives p 1).bind fun _ => Stops.of_get.bind fun _ =>
    (impossible_survives (complain_stops _ _)).bind fun _ => .of_pure _

theorem fg_survives (p : Parser) (answers : Answers) : Stops Survives (fg p answers) :=
  (namedJob_survives _ p).bind fun _ => (record_survives _).bind fun _ => (impossible_survives (orPerror_stops _ _ _)).bind
    fun _ => (impossible_survives (waitpid_stops _ _ _)).bind fun _ =>
      (impossible_survives (handleForeground_stops _ _ _)).bind fun _ => Stops.of_get.bind fun _ => record_survives _

theorem bg_survives (p : Parser) (answers : Answers) : Stops Survives (bg p answers) :=
  (namedJob_survives _ p).bind fun _ => (impossible_survives (orPerror_stops _ _ _)).bind fun _ => Stops.of_get.bind fun _ =>
    Stops.of_modify _

theorem cleanup_closes (killErrors : List (Option CString)) (code : Int) :
    Closes (do
      cleanupJobList killErrors
      exit code) := by
  intro s code' s' run
  obtain ⟨s₁, cleaned, empty, sent⟩ := cleanupJobList_run killErrors s
  rw [Run.seq cleaned] at run
  cases run
  exact ⟨empty, sent⟩

theorem print_steady {stream : Stream} {line : CString} (run : print stream line s = .ok (u, s')) :
    s'.jobList = s.jobList ∧ killed s'.trace = killed s.trace := by
  cases run
  exact ⟨rfl, (killed_append _ _).trans (List.append_nil _)⟩

theorem printJobs_closes (answers : Answers) (elements : List Job) (i : Nat) : Closes (printJobs answers elements i) := by
  induction elements generalizing i with
  | nil =>
    intro s code s' run
    cases run
  | cons cur rest ih =>
    intro s code s' run
    unfold printJobs at run
    split at run
    · rcases Run.bind_error run with run | ⟨_, s₁, printed, rest⟩
      · cases run
      · obtain ⟨same, sent⟩ := print_steady printed
        have closed := cleanup_closes _ _ rest
        rw [same, sent] at closed
        exact closed
    · rcases Run.bind_error run with run | ⟨_, s₁, printed, rest⟩
      · cases run
      · obtain ⟨same, sent⟩ := print_steady printed
        have closed := ih (i + 1) rest
        rw [same, sent] at closed
        exact closed

theorem runCommand_closes (p : Parser) (name : CString) (answers : Answers) : Closes (runCommand p name answers) := by
  unfold runCommand
  split
  · exact Survives.closes (oneArgument_survives _ _ p answers)
  split
  · exact Survives.closes (ln_survives p answers)
  split
  · exact Survives.closes (oneArgument_survives _ _ p answers)
  split
  · exact cleanup_closes _ _
  split
  · intro s code s' run
    exact printJobs_closes _ _ _ (Run.seq_get.symm.trans run)
  split
  · exact Survives.closes (fg_survives p answers)
  split
  · exact Survives.closes (bg_survives p answers)
  · exact Survives.closes (impossible_survives (launch_stops p name answers))

/-- A call of the parser is a message. -/
theorem parse_steady {command : CString} (run : parse command s = .ok (p, s')) :
    s'.jobList = s.jobList ∧ killed s'.trace = killed s.trace := by
  obtain ⟨calls, trace, each⟩ := parse_adds (P := fun call => killed [call] = []) (fun _ _ => rfl) command run
  refine ⟨(parse_keeps record_quiet command run).jobList, ?_⟩
  have none : killed calls = [] := by
    apply List.filterMap_eq_nil_iff.mpr
    intro call member
    have one := each call member
    simp only [killed, List.filterMap_cons, List.filterMap_nil] at one
    split at one
    · assumption
    · cases one
  rw [trace, killed_append, none, List.append_nil]

theorem executeCommand_closes (command : CString) (answers : Answers) : Closes (executeCommand command answers) := by
  intro s code s' run
  unfold executeCommand at run
  rcases Run.bind_error run with run | ⟨p, s₁, parsed, run⟩
  · unfold parse at run
    cases parsed : parseLine command with
    | error write =>
      rw [parsed] at run
      cases run
    | ok p =>
      rw [parsed] at run
      rcases Run.bind_error run with run | ⟨_, _, _, run⟩
      · exact (print_stops _ run).elim
      · cases run
  · obtain ⟨same, sent⟩ := parse_steady parsed
    have checks : Stops Survives (checkBackgroundJob answers.reported) := impossible_survives (checkBackgroundJob_stops _)
    cases args : p.args with
    | nil =>
      simp only [args] at run
      exact (checks run code s' rfl).elim
    | cons name rest =>
      simp only [args] at run
      rcases Run.bind_error run with run | ⟨_, s₂, _, run⟩
      · have closed := runCommand_closes p name answers run
        rw [same, sent] at closed
        exact closed
      · exact (checks run code s' rfl).elim

/-! ### The end of a run -/

theorem killed_spares {calls : List Call} (spares : ∀ call ∈ calls, call.Spares) : killed calls = [] := by
  apply List.filterMap_eq_nil_iff.mpr
  intro call member
  have spared := spares call member
  cases call with
  | kill target signal =>
    obtain rfl : signal = .sigcont := spared
    rfl
  | _ => rfl

/-- While the shell runs it sends no `SIGKILL`. At its end it sends one to the process group of each of
its children, and to nothing else, if every `fork` succeeded and no child was lost on the way. -/
theorem shell_kills_children {pgrp : Int}
    (reachable : Reachable pgrp (fun s line => Proper s line ∧ line.ReapsResumed) s) (ends : Ends s s') :
    killed s.trace = [] ∧ s'.jobList = .init ∧ killed s'.trace = s.jobList.pids ∧ (killed s'.trace).Nodup ∧
      ∀ pid, pid ∈ killed s'.trace ↔ pid ∈ s.children := by
  have none := killed_spares (run_spares reachable)
  have closed : s'.jobList = .init ∧ killed s'.trace = killed s.trace ++ s.jobList.pids := by
    cases ends with
    | endOfInput killErrors run =>
      obtain ⟨s₁, cleaned, empty, sent⟩ := cleanupJobList_run killErrors s
      obtain rfl := congrArg Prod.snd (Except.ok.inj (run.symm.trans cleaned))
      exact ⟨empty, sent⟩
    | exits line code run => exact executeCommand_closes _ _ run
  obtain ⟨empty, sent⟩ := closed
  rw [none, List.nil_append] at sent
  have accounts : Accounts .none s := by
    apply reachable.invariant (P := Accounts .none) (accounts_initial pgrp)
    intro s s' line accounts allowed run
    exact (step_accounts accounts allowed.1 run).1 allowed.2
  rw [sent]
  exact ⟨none, empty, rfl, accounts.once, accounts.tracked.listed⟩

/-- Two jobs, one of them stopped, at the end of the input. -/
theorem shell_kills_children_exit : ∃ s s', Reachable 1 (fun s line => Proper s line ∧ line.ReapsResumed) s ∧ Ends s s' ∧
    s.children = {7, 8} ∧ killed s'.trace = [7, 8] := by
  have run : (Transition.follow State.step (fun s line => Proper s line ∧ line.ReapsResumed)
      (stopAndContinue.take 2) (State.initial 1)).map (fun s => (s.jobList.pids, s.children)) = some ([7, 8], {7, 8}) := by
    decide +kernel
  obtain ⟨s, found, view⟩ := Option.map_eq_some_iff.mp run
  obtain ⟨pids, children⟩ := Prod.mk.inj view
  have reachable := Transition.follow_reachable Transition.Reachable.initial found
  obtain ⟨s', cleaned, _⟩ := cleanupJobList_run [] s
  have ends : Ends s s' := .endOfInput [] cleaned
  obtain ⟨_, _, sent, _⟩ := shell_kills_children reachable ends
  exact ⟨s, s', reachable, ends, children, sent.trans pids⟩

end Cs1330.Shell
