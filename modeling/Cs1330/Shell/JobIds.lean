import Cs1330.Shell.Children

/-!
# A job id means one process

The list is updated by pid and looked up by jid. Whatever happens to it between two launches only
drops entries or changes their state, and a launch appends an entry under the next jid; so the
entries are always among the jobs that were announced, in the order in which they were.
-/

namespace Cs1330.Shell

/-! ### Announcements -/

/-- A job as the shell announces it when it enters the list. -/
structure Announcement where
  jid : Int
  pid : Int
  line : CString
  deriving DecidableEq, Repr

/-- The job that a launched program becomes: in the background, or stopped in the foreground. -/
def announcedBy (jid : Int) (p : Parser) (answers : Answers) : Option Announcement :=
  if p.isBgJob = 0 then
    match answers.waited with
    | some (pid, .stopped signal) => some ⟨jid, pid, text s!"[{jid}] ({pid}) suspended by signal {signal}\n"⟩
    | _ => none
  else some ⟨jid, answers.forked, text s!"[{jid}] ({answers.forked})\n"⟩

def Line.announces (line : Line) (s : State) : Option Announcement :=
  line.launches.bind fun p => announcedBy s.jid p line.answers

/-- The shell with the list of all announcements so far. -/
structure Logged where
  state : State
  announced : List Announcement

namespace Logged

def initial (pgrp : Int) : Logged := ⟨State.initial pgrp, []⟩

def step (l : Logged) (line : Line) : Except Stop (Option Logged) :=
  (l.state.step line).map fun next => next.map fun s => ⟨s, l.announced ++ (line.announces l.state).toList⟩

abbrev Reachable (pgrp : Int) : Logged → Prop := Transition.Reachable step (initial pgrp) fun _ _ => True

/-- Every job that entered the list was announced; the jids are in order and below the counter;
none was given twice, and a jid leads to the process it was announced for or to none. -/
structure JobIds (l : Logged) : Prop where
  complete : l.state.jobList.allocated = l.announced.length
  printed : ∀ a ∈ l.announced, Call.print .stdout a.line ∈ l.state.trace
  increasing : l.state.jobList.jids.Pairwise (· < ·)
  below : ∀ jid ∈ l.state.jobList.jids, jid < l.state.jid
  distinct : (l.announced.map (·.jid)).Nodup
  process : ∀ a ∈ l.announced, l.state.jobList.getJobPid a.jid = a.pid ∨ l.state.jobList.getJobPid a.jid = -1

end Logged

/-! ### Entries -/

namespace JobList

def names (l : JobList) : List (Int × Int) := l.elements.map fun job => (job.jid, job.pid)

variable {l : JobList} {jid pid : Int} {state : ProcessState} {command : CString}

theorem names_addJob (l : JobList) (jid pid : Int) (state : ProcessState) (command : CString) :
    (l.addJob jid pid state command).names = l.names ++ [(jid, pid)] ∧
      (l.addJob jid pid state command).allocated = l.allocated + 1 := by
  unfold addJob
  split
  · rename_i empty
    simp [names, empty]
  · simp [names]

theorem names_removeJobPid (l : JobList) (pid : Int) : (l.removeJobPid pid).1.names.Sublist l.names ∧
    (l.removeJobPid pid).1.allocated = l.allocated := by
  constructor
  · unfold names removeJobPid
    rw [elements_removeFirst]
    exact List.eraseP_sublist.map _
  · unfold removeJobPid removeFirst
    split <;> rfl

theorem names_updateJobPid (l : JobList) (pid : Int) (state : ProcessState) : (l.updateJobPid pid state).1.names = l.names ∧
    (l.updateJobPid pid state).1.allocated = l.allocated := by
  have kept : ∀ (found : Job → Bool) (jobs : List Job),
      (updateElements found state jobs).1.map (fun job => (job.jid, job.pid)) = jobs.map fun job => (job.jid, job.pid) := by
    intro found jobs
    induction jobs with
    | nil => rfl
    | cons cur rest ih =>
      unfold updateElements
      split
      · rfl
      · simp [ih]
  exact ⟨kept _ _, rfl⟩

theorem jids_names : l.jids = l.names.map Prod.fst := by
  simp [jids, names]

theorem getJobPid_names (l : JobList) (jid : Int) : (jid, l.getJobPid jid) ∈ l.names ∨ l.getJobPid jid = -1 := by
  unfold getJobPid
  split
  · rename_i cur found
    have same : cur.jid = jid := by simpa using List.find?_some found
    exact .inl (List.mem_map.mpr ⟨cur, List.mem_of_find?_eq_some found, by rw [same]⟩)
  · exact .inr rfl

end JobList

/-! ### Calls that enter no job -/

/-- No job was entered: the counter stands, and entries have at most gone. -/
structure Drops (s s' : State) : Prop where
  names : s'.jobList.names.Sublist s.jobList.names
  allocated : s'.jobList.allocated = s.jobList.allocated
  jid : s'.jid = s.jid
  trace : s.trace.Sublist s'.trace

instance dropsRefl : Std.Refl Drops := ⟨fun _ => ⟨.refl _, rfl, rfl, .refl _⟩⟩

instance dropsTrans : IsTrans State Drops where
  trans _ _ _ first second :=
    ⟨second.names.trans first.names, second.allocated.trans first.allocated, second.jid.trans first.jid,
      first.trace.trans second.trace⟩

open Run (Keeps)

theorem record_drops (call : Call) : Keeps Drops (record call) :=
  .of_modify fun _ => ⟨.refl _, rfl, rfl, List.sublist_append_left _ _⟩

theorem Drops.remove {s s' : State} {pid : Int} (jobList : s'.jobList = (s.jobList.removeJobPid pid).1)
    (jid : s'.jid = s.jid) (trace : s.trace.Sublist s'.trace) : Drops s s' := by
  obtain ⟨names, allocated⟩ := JobList.names_removeJobPid s.jobList pid
  rw [← jobList] at names allocated
  exact ⟨names, allocated, jid, trace⟩

theorem Drops.update {s s' : State} {pid : Int} {state : ProcessState}
    (jobList : s'.jobList = (s.jobList.updateJobPid pid state).1) (jid : s'.jid = s.jid)
    (trace : s.trace.Sublist s'.trace) : Drops s s' := by
  obtain ⟨names, allocated⟩ := JobList.names_updateJobPid s.jobList pid state
  rw [← jobList] at names allocated
  exact ⟨names ▸ .refl _, allocated, jid, trace⟩

theorem waitpid_drops (target : Int) (options : WaitOptions) (result : Option (Int × Status)) :
    Keeps Drops (waitpid target options result) := by
  intro s u s' run
  unfold waitpid at run
  obtain ⟨_, _, got, run⟩ := Run.bind run
  cases got
  split at run
  · cases run
    exact ⟨.refl _, rfl, rfl, List.sublist_append_left _ _⟩
  · cases run

theorem fork_drops (pid : Int) (child : List ChildCall) : Keeps Drops (fork pid child) := by
  intro s u s' run
  unfold fork at run
  obtain ⟨_, _, got, run⟩ := Run.bind run
  cases got
  split at run
  · exact record_drops _ run
  split at run
  · cases run
    exact ⟨.refl _, rfl, rfl, List.sublist_append_left _ _⟩
  · cases run

theorem handleReport_drops (curPid : Int) (status : Status) : Keeps Drops (handleReport curPid status) := by
  intro s u s' run
  cases status with
  | exited code =>
    cases run
    exact .remove rfl rfl (List.sublist_append_left _ _)
  | signaled signal =>
    cases run
    exact .remove rfl rfl (List.sublist_append_left _ _)
  | stopped signal =>
    cases run
    exact .update rfl rfl (List.sublist_append_left _ _)
  | continued =>
    cases run
    exact .update rfl rfl (List.sublist_append_left _ _)

theorem checkBackgroundJob_drops (reported : List (Int × Status)) : Keeps Drops (checkBackgroundJob reported) := by
  induction reported with
  | nil => exact waitpid_drops _ _ _
  | cons report rest ih => exact (waitpid_drops _ _ _).bind fun _ => (handleReport_drops _ _).bind fun _ => ih

theorem handleForeground_drops (fgJid fgPid : Int) (result : Option (Int × Status)) :
    Keeps Drops (handleForeground fgJid fgPid result) := by
  intro s u s' run
  rcases result with _ | ⟨pid, status⟩
  · cases run
    exact refl_of Drops _
  cases status with
  | exited code =>
    cases run
    exact .remove rfl rfl (.refl _)
  | signaled signal =>
    cases run
    exact .remove rfl rfl (List.sublist_append_left _ _)
  | stopped signal =>
    cases run
    exact .update rfl rfl (List.sublist_append_left _ _)
  | continued =>
    cases run
    exact refl_of Drops _

theorem fg_drops (p : Parser) (answers : Answers) : Keeps Drops (fg p answers) :=
  (namedJob_keeps record_drops _ _).bind fun _ => (record_drops _).bind fun _ =>
    (orPerror_keeps record_drops _ _ _).bind fun _ => (waitpid_drops _ _ _).bind fun _ =>
      (handleForeground_drops _ _ _).bind fun _ => takeTerminal_keeps record_drops

theorem bg_drops (p : Parser) (answers : Answers) : Keeps Drops (bg p answers) := by
  refine (namedJob_keeps record_drops _ _).bind fun named => (orPerror_keeps record_drops _ _ _).bind fun _ => ?_
  intro s u s' run
  cases run
  exact .update rfl rfl (.refl _)

/-! ### Launching -/

/-- The announced job, if any, was entered under the counter's value, which moved on. -/
structure Enters (announced : Option Announcement) (s s' : State) : Prop where
  names : s'.jobList.names.Sublist (s.jobList.names ++ announced.toList.map fun a => (a.jid, a.pid))
  allocated : s'.jobList.allocated = s.jobList.allocated + announced.toList.length
  jid : s'.jid = if announced.isSome then Machine.wrap 32 (s.jid + 1) else s.jid
  own : ∀ a ∈ announced, a.jid = s.jid
  printed : ∀ a ∈ announced, Call.print .stdout a.line ∈ s'.trace
  trace : s.trace.Sublist s'.trace

section

variable {s s' s'' : State} {u : Unit} {announced : Option Announcement}

theorem Drops.enters (drops : Drops s s') : Enters none s s' :=
  ⟨by simpa using drops.names, drops.allocated, drops.jid, nofun, nofun, drops.trace⟩

theorem Enters.before (enters : Enters announced s' s'') (drops : Drops s s') : Enters announced s s'' := by
  refine ⟨enters.names.trans (drops.names.append_right _), ?_, ?_, ?_, enters.printed, drops.trace.trans enters.trace⟩
  · rw [enters.allocated, drops.allocated]
  · rw [enters.jid, drops.jid]
  · rw [← drops.jid]
    exact enters.own

theorem Enters.after (enters : Enters announced s s') (drops : Drops s' s'') : Enters announced s s'' := by
  refine ⟨drops.names.trans enters.names, drops.allocated.trans enters.allocated, drops.jid.trans enters.jid, enters.own, ?_,
    enters.trace.trans drops.trace⟩
  intro a member
  exact drops.trace.subset (enters.printed a member)

theorem addNewJob_enters {pid : Int} {state : ProcessState} {command : CString} {line : Int → String}
    (run : addNewJob pid state command line s = .ok (u, s')) : Enters (some ⟨s.jid, pid, text (line s.jid)⟩) s s' := by
  obtain ⟨names, allocated⟩ :=
    JobList.names_addJob s.jobList s.jid pid state command
  cases run
  refine ⟨?_, allocated, rfl, ?_, ?_, List.sublist_append_left _ _⟩
  · exact names ▸ .refl _
  · intro a same
    obtain rfl := Option.some.inj same
    rfl
  · intro a same
    obtain rfl := Option.some.inj same
    exact List.mem_append_right _ (List.mem_singleton_self _)

theorem handleLaunched_enters {p : Parser} {command : CString} {answers : Answers} (foreground : p.isBgJob = 0)
    (run : handleLaunched command answers.waited s = .ok (u, s')) : Enters (announcedBy s.jid p answers) s s' := by
  unfold announcedBy
  rw [if_pos foreground]
  rcases waited : answers.waited with _ | ⟨pid, status⟩
  · rw [waited] at run
    cases run
    exact (refl_of Drops _).enters
  rw [waited] at run
  cases status with
  | exited code =>
    cases run
    exact (refl_of Drops _).enters
  | signaled signal =>
    cases run
    exact Drops.enters (.remove rfl rfl (List.sublist_append_left _ _))
  | stopped signal =>
    unfold handleLaunched at run
    have enters := addNewJob_enters run
    exact enters
  | continued =>
    cases run
    exact (refl_of Drops _).enters

theorem launch_enters {p : Parser} {command : CString} {answers : Answers} (run : launch p command answers s = .ok (u, s')) :
    Enters (announcedBy s.jid p answers) s s' := by
  unfold launch at run
  obtain ⟨_, s₁, forked, run⟩ := Run.bind run
  have drops := fork_drops _ _ forked
  split at run
  · rename_i foreground
    obtain ⟨_, s₂, waited, run⟩ := Run.bind run
    obtain ⟨_, s₃, handled, finished⟩ := Run.bind run
    have drops := trans_of Drops drops (waitpid_drops _ _ _ waited)
    have enters := handleLaunched_enters foreground handled
    rw [drops.jid] at enters
    exact (enters.before drops).after (takeTerminal_keeps record_drops finished)
  · rename_i background
    have enters := addNewJob_enters run
    rw [drops.jid] at enters
    unfold announcedBy
    rw [if_neg background]
    exact enters.before drops

theorem runCommand_drops {p : Parser} {name : CString} {answers : Answers} (builtin : name ∈ builtins) :
    Keeps Drops (runCommand p name answers) := by
  intro s u s' run
  unfold runCommand at run
  split at run
  · exact oneArgument_keeps record_drops _ _ p answers run
  split at run
  · exact ln_keeps record_drops p answers run
  split at run
  · exact oneArgument_keeps record_drops _ _ p answers run
  split at run
  · obtain ⟨_, _, _, run⟩ := Run.bind run
    cases run
  split at run
  · exact jobs_keeps record_drops answers run
  split at run
  · exact fg_drops p answers run
  split at run
  · exact bg_drops p answers run
  · simp_all [builtins]

theorem executeCommand_enters {line : Line} (run : executeCommand line.command line.answers s = .ok (u, s')) :
    Enters (line.announces s) s s' := by
  unfold executeCommand at run
  obtain ⟨p, s₁, parsed, run⟩ := Run.bind run
  have drops := parse_keeps record_drops _ parsed
  have parses := parse_ok parsed
  unfold Line.announces Line.launches
  simp only [parses]
  cases args : p.args with
  | nil =>
    simp only [args] at run ⊢
    exact (trans_of Drops drops (checkBackgroundJob_drops _ run)).enters
  | cons name rest =>
    simp only [args] at run ⊢
    obtain ⟨_, s₂, commanded, checked⟩ := Run.bind run
    have finished := checkBackgroundJob_drops _ checked
    by_cases builtin : name ∈ builtins
    · rw [if_pos builtin]
      have command := runCommand_drops builtin commanded
      exact (trans_of Drops (trans_of Drops drops command) finished).enters
    · rw [if_neg builtin]
      rw [runCommand_program builtin] at commanded
      have enters := launch_enters commanded
      rw [drops.jid] at enters
      exact (enters.before drops).after finished

end

/-! ### Runs -/

/-- The entries are among the announcements, which count up from 1. -/
structure Logged.Ordered (l : Logged) : Prop where
  names : l.state.jobList.names.Sublist (l.announced.map fun a => (a.jid, a.pid))
  complete : l.state.jobList.allocated = l.announced.length
  printed : ∀ a ∈ l.announced, Call.print .stdout a.line ∈ l.state.trace
  -- beyond this the `int` wraps
  counter : l.announced.length < 2 ^ 31 - 1 → l.state.jid = l.announced.length + 1
  increasing : l.announced.length < 2 ^ 31 - 1 → l.announced.Pairwise fun a b => a.jid < b.jid
  below : l.announced.length < 2 ^ 31 - 1 → ∀ a ∈ l.announced, a.jid < l.state.jid

theorem ordered_initial (pgrp : Int) : (Logged.initial pgrp).Ordered :=
  ⟨List.nil_sublist _, rfl, nofun, fun _ => rfl, fun _ => .nil, fun _ => nofun⟩

theorem ordered_enters {l : Logged} {announced : Option Announcement} {s' : State} (ordered : l.Ordered)
    (enters : Enters announced l.state s') : Logged.Ordered ⟨s', l.announced ++ announced.toList⟩ := by
  cases announced with
  | none =>
    have names := enters.names
    have jid : s'.jid = l.state.jid := enters.jid
    simp only [Option.toList_none, List.map_nil, List.append_nil] at names ⊢
    refine ⟨names.trans ordered.names, enters.allocated.trans ordered.complete, ?_, ?_, ordered.increasing, ?_⟩
    · intro a member
      exact enters.trace.subset (ordered.printed a member)
    · rw [jid]
      exact ordered.counter
    · rw [jid]
      exact ordered.below
  | some a =>
    have jid : s'.jid = Machine.wrap 32 (l.state.jid + 1) := enters.jid
    have own := enters.own a rfl
    have next : l.announced.length + 1 < 2 ^ 31 - 1 → s'.jid = l.announced.length + 2 := by
      intro few
      have counter := ordered.counter (by omega)
      rw [jid, counter]
      have exact' : Machine.wrap 32 (l.announced.length + 1 + 1) = l.announced.length + 1 + 1 :=
        Int.bmod_eq_of_le (by norm_num; omega) (by norm_num; omega)
      omega
    have few : l.announced.length + 1 < 2 ^ 31 - 1 → l.announced.length < 2 ^ 31 - 1 := by omega
    simp only [Option.toList_some]
    refine ⟨?_, ?_, ?_, ?_, ?_, ?_⟩
    · rw [List.map_append]
      exact enters.names.trans (ordered.names.append_right _)
    · rw [List.length_append]
      exact enters.allocated.trans (by rw [ordered.complete]; rfl)
    · intro b member
      rcases List.mem_append.mp member with old | new
      · exact enters.trace.subset (ordered.printed b old)
      · obtain rfl := List.mem_singleton.mp new
        exact enters.printed b rfl
    · intro small
      rw [List.length_append, List.length_singleton] at small ⊢
      rw [next small]
      push_cast
      omega
    · intro small
      rw [List.length_append, List.length_singleton] at small
      have below := ordered.below (few small)
      rw [List.pairwise_append]
      refine ⟨ordered.increasing (few small), List.pairwise_singleton _ _, ?_⟩
      intro b old c new
      obtain rfl := List.mem_singleton.mp new
      rw [own]
      exact below b old
    · intro small b member
      rw [List.length_append, List.length_singleton] at small
      have counter := ordered.counter (few small)
      show b.jid < s'.jid
      rw [next small]
      rcases List.mem_append.mp member with old | new
      · have below := ordered.below (few small) b old
        omega
      · obtain rfl := List.mem_singleton.mp new
        omega

theorem reachable_ordered {pgrp : Int} {l : Logged} (reachable : Logged.Reachable pgrp l) : l.Ordered := by
  apply reachable.invariant (P := Logged.Ordered) (ordered_initial pgrp)
  intro l l' line ordered _ run
  unfold Logged.step at run
  cases stepped : l.state.step line with
  | error stop =>
    rw [stepped] at run
    cases run
  | ok next =>
    rw [stepped] at run
    cases next with
    | none => cases run
    | some s' =>
      obtain ⟨u, returned⟩ := step_returns stepped
      obtain rfl := Option.some.inj (Except.ok.inj run)
      exact ordered_enters ordered (executeCommand_enters returned)

/-- With fewer than 2^31 - 1 jobs started, a jid stays with the process it was announced for. -/
theorem reachable_jobIds {pgrp : Int} {l : Logged} (reachable : Logged.Reachable pgrp l)
    (few : l.announced.length < 2 ^ 31 - 1) : l.JobIds := by
  obtain ⟨names, complete, printed, _, increasing, below⟩ := reachable_ordered reachable
  have increasing := increasing few
  have below := below few
  have jids : l.state.jobList.jids.Sublist (l.announced.map (·.jid)) := by
    have firsts := names.map Prod.fst
    rw [← JobList.jids_names, List.map_map] at firsts
    exact firsts
  have distinct : (l.announced.map (·.jid)).Nodup := List.pairwise_map.mpr (increasing.imp fun less => ne_of_lt less)
  refine ⟨complete, printed, (List.pairwise_map.mpr increasing).sublist jids, ?_, distinct, ?_⟩
  · intro jid listed
    obtain ⟨a, member, rfl⟩ := List.mem_map.mp (jids.subset listed)
    exact below a member
  · intro a member
    rcases JobList.getJobPid_names l.state.jobList a.jid with listed | missing
    · left
      obtain ⟨b, bMem, same⟩ := List.mem_map.mp (names.subset listed)
      obtain ⟨jid, pid⟩ := Prod.mk.inj same
      obtain rfl := List.inj_on_of_nodup_map distinct bMem member jid
      exact pid.symm
    · exact .inr missing

theorem jobIds_stopAndContinue : ∃ l, Transition.follow Logged.step (fun _ _ => True) stopAndContinue (Logged.initial 1) =
    some l ∧ l.announced.map (fun a => (a.jid, a.pid)) = [(1, 7), (2, 8)] ∧ l.JobIds := by
  have run : (Transition.follow Logged.step (fun _ _ => True) stopAndContinue (Logged.initial 1)).map
      (fun l => l.announced.map fun a => (a.jid, a.pid)) = some [(1, 7), (2, 8)] := by decide +kernel
  obtain ⟨l, found, announced⟩ := Option.map_eq_some_iff.mp run
  have two : l.announced.length = 2 := by
    rw [← List.length_map (fun a : Announcement => (a.jid, a.pid)), announced]
    rfl
  exact ⟨l, found, announced, reachable_jobIds (Transition.follow_reachable .initial found) (by omega)⟩

end Cs1330.Shell
