import Cs1330.Lib.Run
import Cs1330.Shell.Execute

/-!
# No child is lost

At every return of `execute_command` the job list holds the children of the shell, each once. The
one way out is a program started in the foreground that is reported as continued: the call that
waits for it asks for this status, and then neither keeps waiting nor enters the child into the
list. The child stays lost until `check_background_job` reaps it.
-/

namespace Cs1330.Shell

/-- The pids in the list are the children of the shell, each once. -/
structure Tracked (s : State) : Prop where
  once : s.jobList.pids.Nodup
  listed : ∀ pid, pid ∈ s.jobList.pids ↔ pid ∈ s.children

def Status.dead : Status → Bool
  | .exited _ | .signaled _ => true
  | .stopped _ | .continued => false

def builtins : List CString := ["cd", "ln", "rm", "exit", "jobs", "fg", "bg"].map text

/-- The program, when it is started in the foreground and reported as continued. -/
def resumedBy (p : Parser) (answers : Answers) : Option Int :=
  match answers.waited with
  | some (pid, .continued) => if p.isBgJob = 0 then some pid else none
  | _ => none

namespace Line

/-- The parsed line, when it starts a program. -/
def launches (line : Line) : Option Parser :=
  match parseLine line.command with
  | .error _ => none
  | .ok p =>
    match p.args with
    | [] => none
    | name :: _ => if name ∈ builtins then none else some p

def ForkSucceeds (line : Line) : Prop := line.launches.isSome = true → line.answers.forked ≠ -1

instance (line : Line) : Decidable line.ForkSucceeds := inferInstanceAs (Decidable (_ → _))

/-- `args`, as far as it is set. -/
def args (line : Line) : List CString :=
  match parseLine line.command with
  | .error _ => []
  | .ok p => p.args

/-- The argument of `fg` or `bg` is the only one and names a job of the list. -/
def WellNamed (s : State) (line : Line) : Prop :=
  line.args.head? = some (text "fg") ∨ line.args.head? = some (text "bg") →
    line.args.length = 2 ∧ ∀ arg ∈ line.args.tail, atoi arg.tail ∈ s.jobList.jids

instance (s : State) (line : Line) : Decidable (line.WellNamed s) := inferInstanceAs (Decidable (_ → _))

def resumed (line : Line) : Option Int := line.launches.bind fun p => resumedBy p line.answers

def Reaps (line : Line) (pid : Int) : Prop := ∃ report ∈ line.answers.reported, report.1 = pid ∧ report.2.dead = true

/-- A program reported as continued in the foreground is gone before the line is done. -/
def ReapsResumed (line : Line) : Prop := ∀ pid ∈ line.resumed, line.Reaps pid

instance (line : Line) (pid : Int) : Decidable (line.Reaps pid) := inferInstanceAs (Decidable (∃ _ ∈ _, _))

instance (line : Line) : Decidable line.ReapsResumed := inferInstanceAs (Decidable (∀ _ ∈ _, _))

end Line

/-- What is assumed of a line: `fork` succeeds, and `fg` and `bg` name a job. -/
def Proper (s : State) (line : Line) : Prop := line.ForkSucceeds ∧ line.WellNamed s

instance (s : State) (line : Line) : Decidable (Proper s line) := inferInstanceAs (Decidable (_ ∧ _))

/-! ### Calls that touch neither the jobs nor the children -/

structure Quiet (s s' : State) : Prop where
  jobList : s'.jobList = s.jobList
  jid : s'.jid = s.jid
  children : s'.children = s.children

instance quietRefl : Std.Refl Quiet := ⟨fun _ => ⟨rfl, rfl, rfl⟩⟩

instance quietTrans : IsTrans State Quiet where
  trans _ _ _ first second :=
    ⟨second.jobList.trans first.jobList, second.jid.trans first.jid, second.children.trans first.children⟩

open Run (Keeps)

theorem record_quiet (call : Call) : Keeps Quiet (record call) := .of_modify fun _ => ⟨rfl, rfl, rfl⟩

/-! Most of the code only records calls; it keeps whatever recording a call keeps. -/

section

variable {R : State → State → Prop} [Std.Refl R] [IsTrans State R] (records : ∀ call, Keeps R (record call))
include records

theorem orPerror_keeps (call : Call) (name : String) (error : Option CString) : Keeps R (orPerror call name error) := by
  unfold orPerror
  apply (records call).bind
  intro _
  cases error with
  | none => exact .of_pure _
  | some error => exact records _

omit [IsTrans State R] records in
theorem argument_keeps (p : Parser) (i : Nat) : Keeps R (argument p i) := by
  unfold argument
  split
  · exact .of_pure _
  · exact .of_throw _

theorem takeTerminal_keeps : Keeps R takeTerminal := Keeps.of_get.bind fun _ => records _

theorem oneArgument_keeps (name : String) (call : CString → Call) (p : Parser) (answers : Answers) :
    Keeps R (oneArgument name call p answers) := by
  unfold oneArgument
  split
  · exact records _
  · exact (argument_keeps p 1).bind fun _ => orPerror_keeps records _ _ _

theorem ln_keeps (p : Parser) (answers : Answers) : Keeps R (ln p answers) := by
  unfold ln
  split
  · exact records _
  · exact (argument_keeps p 1).bind fun _ => (argument_keeps p 2).bind fun _ => orPerror_keeps records _ _ _

theorem parse_keeps (command : CString) : Keeps R (parse command) := by
  unfold parse
  split
  · exact .of_throw _
  · exact (Keeps.forM fun _ => records _).bind fun _ => .of_pure _

theorem printJobs_keeps (answers : Answers) (elements : List Job) (i : Nat) : Keeps R (printJobs answers elements i) := by
  induction elements generalizing i with
  | nil => exact .of_pure _
  | cons cur rest ih =>
    unfold printJobs
    split
    · intro s a s' run
      obtain ⟨_, _, _, run⟩ := Run.bind run
      obtain ⟨_, _, _, run⟩ := Run.bind run
      cases run
    · exact (records _).bind fun _ => ih (i + 1)

theorem jobs_keeps (answers : Answers) : Keeps R (jobs answers) :=
  Keeps.of_get.bind fun _ => printJobs_keeps records _ _ _

omit [IsTrans State R] in
theorem complain_keeps (wrong : Bool) (line : CString) : Keeps R (complain wrong line) := by
  unfold complain
  split
  · exact records _
  · exact .of_pure _

theorem namedJob_keeps (name : String) (p : Parser) : Keeps R (namedJob name p) :=
  (complain_keeps records _ _).bind fun _ => (argument_keeps p 1).bind fun _ => Keeps.of_get.bind fun _ =>
    (complain_keeps records _ _).bind fun _ => .of_pure _

end

/-! ### Calls that do -/

section

variable {s s' : State} {u : Unit}

theorem setJobList_ok {jobList : JobList} (run : setJobList jobList s = .ok (u, s')) :
    s' = { s with jobList := jobList } := by
  cases run
  rfl

theorem fork_ok {pid : Int} {child : List ChildCall} (succeeds : pid ≠ -1) (run : fork pid child s = .ok (u, s')) :
    0 < pid ∧ pid ∉ s.children ∧ s'.jobList = s.jobList ∧ s'.children = insert pid s.children := by
  unfold fork at run
  obtain ⟨_, _, got, run⟩ := Run.bind run
  cases got
  rw [if_neg succeeds] at run
  split at run
  · rename_i fresh
    cases run
    exact ⟨fresh.1, fresh.2, rfl, rfl⟩
  · cases run

theorem waitpid_ok {target : Int} {options : WaitOptions} {result : Option (Int × Status)}
    (run : waitpid target options result s = .ok (u, s')) :
    s.mayReport target options result ∧ s'.jobList = s.jobList ∧ s'.children = unreaped s.children result := by
  unfold waitpid at run
  obtain ⟨_, _, got, run⟩ := Run.bind run
  cases got
  split at run
  · rename_i possible
    cases run
    exact ⟨possible, rfl, rfl⟩
  · cases run

theorem argument_ok {p : Parser} {i : Nat} {arg : CString} (run : argument p i s = .ok (arg, s')) :
    p.args[i]? = some arg ∧ s' = s := by
  unfold argument at run
  cases found : p.args[i]? with
  | none =>
    rw [found] at run
    cases run
  | some word =>
    rw [found] at run
    obtain ⟨rfl, rfl⟩ := Run.pure run
    exact ⟨rfl, rfl⟩

theorem namedJob_ok {name : String} {p : Parser} {jid pid : Int} (run : namedJob name p s = .ok ((jid, pid), s')) :
    Quiet s s' ∧ ∃ arg, p.args[1]? = some arg ∧ jid = atoi arg.tail ∧ pid = s.jobList.getJobPid jid := by
  unfold namedJob at run
  obtain ⟨_, s₁, warned, run⟩ := Run.bind run
  obtain ⟨arg, _, read, run⟩ := Run.bind run
  obtain ⟨found, same⟩ := argument_ok read
  rw [same] at run
  obtain ⟨_, _, got, run⟩ := Run.bind run
  cases got
  obtain ⟨_, s₂, missing, run⟩ := Run.bind run
  obtain ⟨named, rfl⟩ := Run.pure run
  obtain ⟨rfl, rfl⟩ := Prod.mk.inj named
  have before := complain_keeps record_quiet _ _ warned
  refine ⟨trans_of Quiet before (complain_keeps record_quiet _ _ missing), arg, found, rfl, ?_⟩
  rw [before.jobList]

theorem parse_ok {command : CString} {p : Parser} (run : parse command s = .ok (p, s')) : parseLine command = .ok p := by
  unfold parse at run
  cases parsed : parseLine command with
  | error write =>
    rw [parsed] at run
    cases run
  | ok q =>
    rw [parsed] at run
    obtain ⟨_, _, _, returned⟩ := Run.bind run
    obtain ⟨rfl, -⟩ := Run.pure returned
    rfl

theorem addNewJob_ok {pid : Int} {state : ProcessState} {command : CString} {line : Int → String}
    (run : addNewJob pid state command line s = .ok (u, s')) :
    s'.jobList.pids = s.jobList.pids ++ [pid] ∧ s'.children = s.children := by
  cases run
  exact ⟨JobList.pids_addJob, rfl⟩

/-- The pids that are left when a child was reported. -/
def afterReport (pids : List Int) (pid : Int) (status : Status) : List Int :=
  if status.dead then pids.erase pid else pids

theorem handleReport_ok {curPid : Int} {status : Status} (run : handleReport curPid status s = .ok (u, s')) :
    s'.jobList.pids = afterReport s.jobList.pids curPid status ∧ s'.children = s.children := by
  cases status with
  | exited code =>
    cases run
    exact ⟨JobList.pids_removeJobPid, rfl⟩
  | signaled signal =>
    cases run
    exact ⟨JobList.pids_removeJobPid, rfl⟩
  | stopped signal =>
    cases run
    exact ⟨JobList.pids_updateJobPid, rfl⟩
  | continued =>
    cases run
    exact ⟨JobList.pids_updateJobPid, rfl⟩

theorem handleForeground_ok {fgJid fgPid pid : Int} {status : Status} (asked : status ≠ .continued)
    (run : handleForeground fgJid fgPid (some (pid, status)) s = .ok (u, s')) :
    s'.jobList.pids = afterReport s.jobList.pids fgPid status ∧ s'.children = s.children := by
  cases status with
  | exited code =>
    cases run
    exact ⟨JobList.pids_removeJobPid, rfl⟩
  | signaled signal =>
    cases run
    exact ⟨JobList.pids_removeJobPid, rfl⟩
  | stopped signal =>
    cases run
    exact ⟨JobList.pids_updateJobPid, rfl⟩
  | continued => exact absurd rfl asked

end

/-! ### The account of the children -/

/-- The list is complete up to one child, which is not in it. -/
structure Accounts (lost : Option Int) (s : State) : Prop where
  once : s.jobList.pids.Nodup
  listed : ∀ pid, pid ∈ s.jobList.pids ↔ pid ∈ s.children ∧ lost ≠ some pid
  positive : ∀ pid ∈ s.children, 0 < pid

theorem accounts_initial (pgrp : Int) : Accounts none (State.initial pgrp) := by
  refine ⟨List.nodup_nil, ?_, ?_⟩
  · intro pid
    simp [State.initial, JobList.pids_init]
  · intro pid child
    simp [State.initial] at child

section

variable {s s' : State} {u : Unit} {lost : Option Int} {pid : Int}

theorem Accounts.tracked (accounts : Accounts none s) : Tracked s :=
  ⟨accounts.once, fun pid => (accounts.listed pid).trans (by simp)⟩

/-- What was lost does not matter any more when it is gone. -/
theorem Accounts.gone (accounts : Accounts (some pid) s) (gone : pid ∉ s.children) : Accounts none s := by
  refine ⟨accounts.once, ?_, accounts.positive⟩
  intro q
  rw [accounts.listed q]
  have different : q ∈ s.children → some pid ≠ some q := by
    intro child same
    obtain rfl := Option.some.inj same
    exact gone child
  simpa using different

theorem Accounts.not_tracked (accounts : Accounts (some pid) s) (child : pid ∈ s.children) : ¬Tracked s := by
  intro tracked
  have listed := (tracked.listed pid).mpr child
  exact ((accounts.listed pid).mp listed).2 rfl

theorem Accounts.same (accounts : Accounts lost s) (pids : s'.jobList.pids = s.jobList.pids)
    (children : s'.children = s.children) : Accounts lost s' := by
  refine ⟨?_, ?_, ?_⟩
  · rw [pids]
    exact accounts.once
  · intro pid
    rw [pids, children]
    exact accounts.listed pid
  · rw [children]
    exact accounts.positive

theorem Accounts.quiet (accounts : Accounts lost s) (quiet : Quiet s s') : Accounts lost s' :=
  accounts.same (by rw [quiet.jobList]) quiet.children

theorem Accounts.insert_positive (accounts : Accounts lost s) (positive : 0 < pid)
    (children : s'.children = insert pid s.children) : ∀ q ∈ s'.children, 0 < q := by
  intro q child
  rw [children] at child
  rcases Finset.mem_insert.mp child with rfl | child
  · exact positive
  · exact accounts.positive q child

theorem Accounts.add (accounts : Accounts lost s) (positive : 0 < pid) (fresh : pid ∉ s.children) (found : lost ≠ some pid)
    (pids : s'.jobList.pids = s.jobList.pids ++ [pid]) (children : s'.children = insert pid s.children) :
    Accounts lost s' := by
  have unlisted : pid ∉ s.jobList.pids := fun listed => fresh ((accounts.listed pid).mp listed).1
  refine ⟨?_, ?_, accounts.insert_positive positive children⟩
  · rw [pids]
    exact List.Nodup.append accounts.once (List.nodup_singleton pid) (by simpa using unlisted)
  · intro q
    rw [pids, children, List.mem_append, List.mem_singleton, Finset.mem_insert, accounts.listed q]
    constructor
    · intro known
      rcases known with known | rfl
      · exact ⟨.inr known.1, known.2⟩
      · exact ⟨.inl rfl, found⟩
    · intro known
      obtain ⟨rfl | child, notLost⟩ := known
      · exact .inr rfl
      · exact .inl ⟨child, notLost⟩

theorem Accounts.lose (accounts : Accounts none s) (positive : 0 < pid) (fresh : pid ∉ s.children)
    (pids : s'.jobList.pids = s.jobList.pids) (children : s'.children = insert pid s.children) :
    Accounts (some pid) s' := by
  refine ⟨?_, ?_, accounts.insert_positive positive children⟩
  · rw [pids]
    exact accounts.once
  · intro q
    rw [pids, children, Finset.mem_insert, accounts.listed q]
    constructor
    · intro known
      refine ⟨.inr known.1, ?_⟩
      intro same
      obtain rfl := Option.some.inj same
      exact fresh known.1
    · intro known
      obtain ⟨rfl | child, notLost⟩ := known
      · exact absurd rfl notLost
      · exact ⟨child, nofun⟩

/-- A status is accounted for when the list loses the pid that the children lose. -/
theorem Accounts.report {status : Status} (accounts : Accounts lost s)
    (pids : s'.jobList.pids = afterReport s.jobList.pids pid status)
    (children : s'.children = unreaped s.children (some (pid, status))) : Accounts lost s' := by
  have reaped : ∀ s', s'.jobList.pids = s.jobList.pids.erase pid → s'.children = s.children.erase pid → Accounts lost s' := by
    intro s' pids children
    refine ⟨?_, ?_, ?_⟩
    · rw [pids]
      exact accounts.once.erase pid
    · intro q
      rw [pids, children, accounts.once.mem_erase_iff, Finset.mem_erase, accounts.listed q]
      tauto
    · intro q child
      rw [children] at child
      exact accounts.positive q (Finset.mem_of_mem_erase child)
  cases status with
  | exited code => exact reaped s' pids children
  | signaled signal => exact reaped s' pids children
  | stopped signal => exact accounts.same pids children
  | continued => exact accounts.same pids children

theorem mem_unreaped {children : Finset Int} {q : Int} {status : Status} :
    q ∈ unreaped children (some (pid, status)) ↔ q ∈ children ∧ ¬(pid = q ∧ status.dead = true) := by
  cases status <;> simp [unreaped, Status.dead, and_comm, eq_comm]

/-! ### The commands -/

/-- Reaping keeps the account, and takes those children away that it reports as dead. -/
theorem checkBackgroundJob_accounts {reported : List (Int × Status)} (accounts : Accounts lost s)
    (run : checkBackgroundJob reported s = .ok (u, s')) :
    Accounts lost s' ∧ ∀ q, q ∈ s'.children ↔ q ∈ s.children ∧ ¬∃ report ∈ reported, report.1 = q ∧ report.2.dead = true := by
  induction reported generalizing s with
  | nil =>
    obtain ⟨-, jobList, children⟩ := waitpid_ok run
    refine ⟨accounts.same (by rw [jobList]) children, ?_⟩
    intro q
    rw [children]
    simp [unreaped]
  | cons report rest ih =>
    obtain ⟨curPid, status⟩ := report
    unfold checkBackgroundJob at run
    obtain ⟨_, s₁, waited, run⟩ := Run.bind run
    obtain ⟨_, s₂, handled, run⟩ := Run.bind run
    obtain ⟨-, jobList, children⟩ := waitpid_ok waited
    obtain ⟨pids, kept⟩ := handleReport_ok handled
    rw [jobList] at pids
    rw [children] at kept
    obtain ⟨accounts, left⟩ := ih (accounts.report pids kept) run
    refine ⟨accounts, ?_⟩
    intro q
    rw [left q, kept, mem_unreaped]
    simp only [List.mem_cons, exists_eq_or_imp, not_or]
    tauto

theorem bg_accounts {p : Parser} {answers : Answers} (accounts : Accounts lost s) (run : bg p answers s = .ok (u, s')) :
    Accounts lost s' := by
  unfold bg at run
  obtain ⟨⟨bgJid, bgPid⟩, s₁, named, run⟩ := Run.bind run
  obtain ⟨_, s₂, killed, run⟩ := Run.bind run
  have quiet := trans_of Quiet (namedJob_ok named).1 (orPerror_keeps record_quiet _ _ _ killed)
  cases run
  exact (accounts.quiet quiet).same JobList.pids_updateJobPid rfl

/-- A wait for a child in the list is answered with a status of that child. -/
theorem waitpid_child {options : WaitOptions} {result : Option (Int × Status)} (blocks : options.nohang = false)
    (child : pid ∈ s.children) (positive : 0 < pid) (possible : s.mayReport pid options result) :
    ∃ status, result = some (pid, status) ∧ options.allows status = true := by
  cases result with
  | none =>
    rcases possible with nohang | nobody
    · rw [blocks] at nohang
      cases nohang
    · have waits := nobody pid child
      simp [State.waitsFor] at waits
  | some report =>
    obtain ⟨q, status⟩ := report
    obtain ⟨_, waits, allowed⟩ := possible
    have same : pid = q := by
      simp only [State.waitsFor, Bool.or_eq_true, beq_iff_eq] at waits
      omega
    exact ⟨status, by rw [same], allowed⟩

theorem fg_accounts {p : Parser} {answers : Answers} {arg : CString} (accounts : Accounts none s)
    (args : p.args[1]? = some arg) (listed : atoi arg.tail ∈ s.jobList.jids) (run : fg p answers s = .ok (u, s')) :
    Accounts none s' := by
  unfold fg at run
  obtain ⟨⟨fgJid, fgPid⟩, s₁, named, run⟩ := Run.bind run
  obtain ⟨_, s₂, foreground, run⟩ := Run.bind run
  obtain ⟨_, s₃, killed, run⟩ := Run.bind run
  obtain ⟨_, s₄, waited, run⟩ := Run.bind run
  obtain ⟨_, s₅, handled, finished⟩ := Run.bind run
  obtain ⟨before, arg', found, rfl, rfl⟩ := namedJob_ok named
  obtain rfl : arg' = arg := Option.some.inj (found.symm.trans args)
  have member := JobList.getJobPid_mem listed
  have quiet := trans_of Quiet (trans_of Quiet before (record_quiet _ foreground)) (orPerror_keeps record_quiet _ _ _ killed)
  have child : s.jobList.getJobPid (atoi arg'.tail) ∈ s.children := ((accounts.listed _).mp member).1
  obtain ⟨possible, jobList, children⟩ := waitpid_ok waited
  obtain ⟨status, answer, allowed⟩ :=
    waitpid_child rfl (by rw [quiet.children]; exact child) (accounts.positive _ child) possible
  rw [answer] at handled children
  have asked : status ≠ .continued := by
    rintro rfl
    cases allowed
  obtain ⟨pids, kept⟩ := handleForeground_ok asked handled
  rw [jobList] at pids
  rw [children] at kept
  exact ((accounts.quiet quiet).report pids kept).quiet (takeTerminal_keeps record_quiet finished)

theorem handleLaunched_accounts {command : CString} {status : Status} (accounts : Accounts none s)
    (positive : 0 < pid) (fresh : pid ∉ s.children) {s₁ s₂ : State} (forked : s₁.jobList = s.jobList)
    (children : s₁.children = unreaped (insert pid s.children) (some (pid, status)))
    (run : handleLaunched command (some (pid, status)) s₁ = .ok (u, s₂)) :
    Accounts (if status = .continued then some pid else none) s₂ ∧ (status = .continued → pid ∈ s₂.children) := by
  have unlisted : pid ∉ s.jobList.pids := fun listed => fresh ((accounts.listed pid).mp listed).1
  cases status with
  | exited code =>
    cases run
    have reaped : s₁.children = s.children := by rw [children]; exact Finset.erase_insert fresh
    exact ⟨accounts.same (by rw [forked]) reaped, nofun⟩
  | signaled signal =>
    unfold handleLaunched at run
    obtain ⟨_, s₃, printed, run⟩ := Run.bind run
    obtain ⟨_, _, got, removed⟩ := Run.bind run
    cases got
    have quiet := record_quiet _ printed
    have reaped : s₁.children = s.children := by rw [children]; exact Finset.erase_insert fresh
    rw [setJobList_ok removed]
    refine ⟨accounts.same ?_ (quiet.children.trans reaped), nofun⟩
    show (s₃.jobList.removeJobPid pid).1.pids = _
    rw [JobList.pids_removeJobPid, quiet.jobList, forked, List.erase_of_not_mem unlisted]
  | stopped signal =>
    unfold handleLaunched at run
    obtain ⟨pids, kept⟩ := addNewJob_ok run
    rw [forked] at pids
    exact ⟨accounts.add positive fresh nofun pids (kept.trans children), nofun⟩
  | continued =>
    cases run
    refine ⟨accounts.lose positive fresh (by rw [forked]) children, fun _ => ?_⟩
    rw [children]
    exact Finset.mem_insert_self _ _

theorem launch_accounts {p : Parser} {command : CString} {answers : Answers} (accounts : Accounts none s)
    (succeeds : answers.forked ≠ -1) (run : launch p command answers s = .ok (u, s')) :
    Accounts (resumedBy p answers) s' ∧ ∀ pid ∈ resumedBy p answers, pid ∈ s'.children := by
  unfold launch at run
  obtain ⟨_, s₁, forked, run⟩ := Run.bind run
  obtain ⟨positive, fresh, jobList, children⟩ := fork_ok succeeds forked
  split at run
  · rename_i foreground
    obtain ⟨_, s₂, waited, run⟩ := Run.bind run
    obtain ⟨_, s₃, handled, finished⟩ := Run.bind run
    obtain ⟨possible, sameJobs, left⟩ := waitpid_ok waited
    have child : answers.forked ∈ s₁.children := by
      rw [children]
      exact Finset.mem_insert_self _ _
    obtain ⟨status, answer, -⟩ := waitpid_child rfl child positive possible
    rw [answer] at handled left
    rw [children] at left
    obtain ⟨accounts, kept⟩ := handleLaunched_accounts accounts positive fresh (sameJobs.trans jobList) left handled
    have quiet := takeTerminal_keeps record_quiet finished
    have resumed : resumedBy p answers = if status = .continued then some answers.forked else none := by
      unfold resumedBy
      rw [answer]
      cases status <;> simp [foreground]
    rw [resumed]
    refine ⟨accounts.quiet quiet, ?_⟩
    intro pid lost
    rw [quiet.children]
    by_cases continued : status = .continued
    · rw [if_pos continued] at lost
      obtain rfl := Option.some.inj lost
      exact kept continued
    · rw [if_neg continued] at lost
      cases lost
  · rename_i background
    have resumed : resumedBy p answers = none := by
      unfold resumedBy
      split
      · rw [if_neg background]
      · rfl
    obtain ⟨pids, same⟩ := addNewJob_ok run
    rw [jobList] at pids
    rw [resumed]
    exact ⟨accounts.add positive fresh nofun pids (same.trans children), nofun⟩

theorem runCommand_program {p : Parser} {name : CString} {answers : Answers} (program : name ∉ builtins) :
    runCommand p name answers = launch p name answers := by
  simp only [builtins, List.map_cons, List.map_nil, List.mem_cons, List.not_mem_nil, or_false, not_or] at program
  obtain ⟨cd, ln, rm, exit, jobs, fg, bg⟩ := program
  unfold runCommand
  rw [if_neg cd, if_neg ln, if_neg rm, if_neg exit, if_neg jobs, if_neg fg, if_neg bg]

/-- A built-in command starts nothing; any other line leaves at most its own program out of the list. -/
theorem runCommand_accounts {p : Parser} {name : CString} {answers : Answers} (accounts : Accounts none s)
    (wellNamed : name = text "fg" ∨ name = text "bg" →
      ∃ arg, p.args[1]? = some arg ∧ atoi arg.tail ∈ s.jobList.jids)
    (succeeds : name ∉ builtins → answers.forked ≠ -1) (run : runCommand p name answers s = .ok (u, s')) :
    Accounts (if name ∈ builtins then none else resumedBy p answers) s' ∧
      ∀ pid ∈ (if name ∈ builtins then none else resumedBy p answers), pid ∈ s'.children := by
  by_cases builtin : name ∈ builtins
  · rw [if_pos builtin]
    refine ⟨?_, nofun⟩
    unfold runCommand at run
    split at run
    · exact accounts.quiet (oneArgument_keeps record_quiet _ _ p answers run)
    split at run
    · exact accounts.quiet (ln_keeps record_quiet p answers run)
    split at run
    · exact accounts.quiet (oneArgument_keeps record_quiet _ _ p answers run)
    split at run
    · obtain ⟨_, _, _, run⟩ := Run.bind run
      cases run
    split at run
    · exact accounts.quiet (jobs_keeps record_quiet answers run)
    split at run
    · rename_i foreground
      obtain ⟨arg, args, listed⟩ := wellNamed (.inl foreground)
      exact fg_accounts accounts args listed run
    split at run
    · exact bg_accounts accounts run
    · simp_all [builtins]
  · rw [if_neg builtin]
    rw [runCommand_program builtin] at run
    exact launch_accounts accounts (succeeds builtin) run

theorem executeCommand_accounts {line : Line} (accounts : Accounts none s) (proper : Proper s line)
    (run : executeCommand line.command line.answers s = .ok (u, s')) :
    Accounts line.resumed s' ∧ ∀ pid ∈ line.resumed, pid ∈ s'.children ↔ ¬line.Reaps pid := by
  obtain ⟨succeeds, wellNamed⟩ := proper
  unfold executeCommand at run
  obtain ⟨p, s₁, parsed, run⟩ := Run.bind run
  have quiet := parse_keeps record_quiet _ parsed
  have accounts := accounts.quiet quiet
  have parses := parse_ok parsed
  unfold Line.WellNamed Line.args at wellNamed
  unfold Line.ForkSucceeds Line.launches at succeeds
  unfold Line.resumed Line.launches
  simp only [parses] at wellNamed succeeds ⊢
  cases args : p.args with
  | nil =>
    simp only [args] at run ⊢
    exact ⟨(checkBackgroundJob_accounts accounts run).1, nofun⟩
  | cons name rest =>
    simp only [args] at run wellNamed succeeds ⊢
    obtain ⟨_, s₂, commanded, checked⟩ := Run.bind run
    have named : name = text "fg" ∨ name = text "bg" → ∃ arg, p.args[1]? = some arg ∧ atoi arg.tail ∈ s₁.jobList.jids := by
      intro job
      obtain ⟨two, listed⟩ := wellNamed (by simpa using job)
      obtain ⟨arg, rfl⟩ := List.length_eq_one_iff.mp (Nat.succ.inj two)
      refine ⟨arg, by rw [args]; rfl, ?_⟩
      rw [quiet.jobList]
      exact listed arg (List.mem_singleton_self arg)
    have starts : name ∉ builtins → line.answers.forked ≠ -1 := by
      intro program
      exact succeeds (by rw [if_neg program]; rfl)
    obtain ⟨accounts, kept⟩ := runCommand_accounts accounts named starts commanded
    obtain ⟨accounts, left⟩ := checkBackgroundJob_accounts accounts checked
    have same : ((if name ∈ builtins then none else some p).bind fun p => resumedBy p line.answers) =
        if name ∈ builtins then none else resumedBy p line.answers := by
      split <;> rfl
    rw [same]
    refine ⟨accounts, ?_⟩
    intro pid lost
    rw [left pid]
    exact and_iff_right (kept pid lost)

theorem step_returns {line : Line} (run : s.step line = .ok (some s')) :
    ∃ u, executeCommand line.command line.answers s = .ok (u, s') := by
  unfold State.step at run
  split at run
  · rename_i u s'' returned
    obtain rfl := Option.some.inj (Except.ok.inj run)
    exact ⟨u, returned⟩
  · cases run
  · cases run
  · cases run

/-- A line leaves the list complete exactly when its program is not left running behind a report
that it was continued. -/
theorem step_accounts {line : Line} (accounts : Accounts none s) (proper : Proper s line)
    (run : s.step line = .ok (some s')) :
    (line.ReapsResumed → Accounts none s') ∧ (Tracked s' → line.ReapsResumed) := by
  obtain ⟨u, returned⟩ := step_returns run
  obtain ⟨accounts, left⟩ := executeCommand_accounts accounts proper returned
  unfold Line.ReapsResumed
  cases lost : line.resumed with
  | none =>
    rw [lost] at accounts
    exact ⟨fun _ => accounts, fun _ => nofun⟩
  | some pid =>
    rw [lost] at accounts
    have child := left pid lost
    constructor
    · intro reaps
      exact accounts.gone fun here => child.mp here (reaps pid rfl)
    · intro tracked q same
      obtain rfl := Option.some.inj same
      by_contra missed
      exact accounts.not_tracked (child.mpr missed) tracked

end

/-- As long as no program that was reported as continued in the foreground is left running, the
job list holds the children of the shell; and the first line that leaves one behind breaks this. -/
theorem reachable_tracked {pgrp : Int} {s : State}
    (reachable : Reachable pgrp (fun s line => Proper s line ∧ line.ReapsResumed) s) :
    Tracked s ∧ ∀ line s', Proper s line → s.step line = .ok (some s') → (Tracked s' ↔ line.ReapsResumed) := by
  have accounts : Accounts none s := by
    apply reachable.invariant (P := Accounts none) (accounts_initial pgrp)
    intro s s' line accounts allowed run
    exact (step_accounts accounts allowed.1 run).1 allowed.2
  refine ⟨accounts.tracked, ?_⟩
  intro line s' proper run
  obtain ⟨keeps, needs⟩ := step_accounts accounts proper run
  exact ⟨needs, fun reaps => (keeps reaps).tracked⟩

/-- Two jobs are stopped, brought back and stopped again; one is killed, and its pid is given to a
program that is reported as continued and then as exited. -/
def stopAndContinue : List Line :=
  [⟨text "/bin/sleep 9 &\n", { forked := 7 }⟩,
    ⟨text "/bin/cat\n", { forked := 8, waited := some (8, .stopped 20), reported := [(7, .stopped 19)] }⟩,
    ⟨text "fg %2\n", { waited := some (8, .stopped 20) }⟩,
    ⟨text "bg %1\n", { reported := [(7, .continued)] }⟩,
    ⟨text "\n", { reported := [(7, .signaled 9)] }⟩,
    ⟨text "/bin/ls\n", { forked := 7, waited := some (7, .continued), reported := [(7, .exited 0)] }⟩]

theorem tracked_stopAndContinue : ∃ s, Transition.follow State.step (fun s line => Proper s line ∧ line.ReapsResumed)
    stopAndContinue (State.initial 1) = some s ∧ Tracked s := by
  obtain ⟨s, found⟩ := Option.isSome_iff_exists.mp
    (show (Transition.follow State.step (fun s line => Proper s line ∧ line.ReapsResumed) stopAndContinue
      (State.initial 1)).isSome = true by decide +kernel)
  exact ⟨s, found, (reachable_tracked (Transition.follow_reachable .initial found)).1⟩

/-- The program was stopped and continued before the shell waits for it: it runs on, and the shell
does not know it. -/
theorem continued_child_lost : ∃ s, Reachable 1 Proper s ∧ s.jobList.pids = [] ∧ s.children = {7} ∧ ¬Tracked s := by
  have run : (Transition.follow State.step Proper
      [⟨text "/bin/cat\n", { forked := 7, waited := some (7, .continued) }⟩] (State.initial 1)).map
        (fun s => (s.jobList.pids, s.children)) = some ([], {7}) := by decide +kernel
  obtain ⟨s, found, view⟩ := Option.map_eq_some_iff.mp run
  obtain ⟨pids, children⟩ := Prod.mk.inj view
  refine ⟨s, Transition.follow_reachable .initial found, pids, children, ?_⟩
  intro tracked
  have listed := (tracked.listed 7).mpr (by simp [children])
  simp [pids] at listed

end Cs1330.Shell
