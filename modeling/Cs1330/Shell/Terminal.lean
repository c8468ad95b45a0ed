import Cs1330.Lib.Trace
import Cs1330.Shell.BadJobs

/-!
# Who has the terminal

A program in the foreground takes the terminal for its own process group, `fg` hands it to a job,
and the shell takes it back when it has waited. A child makes the calls of its start at its own time,
so the trace of the shell is interleaved with them. Between two lines the terminal is the shell's,
whatever the lines were and whatever became of the children.
-/

namespace Cs1330.Shell

open Run (Keeps)

variable {s s' s'' : State} {u : Unit} {p : Parser} {command : CString} {answers : Answers}

/-! ### The calls of the shell and its children -/

/-- A call of the shell, or the next call of a child that it has forked. For `tcsetpgrp`, `done` says
whether it succeeds. -/
inductive Event where
  | shell (call : Call) (done : Bool)
  | child (pid : Int) (done : Bool)
  deriving DecidableEq, Repr

/-- What the shell calls. -/
def Event.call : Event → Option Call
  | .shell call _ => some call
  | .child _ _ => none

/-- The process group that has the terminal, and what each child has still to call up to its `execv`
or `exit`. -/
structure World where
  owner : Int
  startup : Int → List ChildCall

def World.initial (pgrp : Int) : World := ⟨pgrp, fun _ => []⟩

namespace World

def give (w : World) (group : Int) (done : Bool) : World := if done then { w with owner := group } else w

/-- These are the calls that the child has to make. -/
def begins (w : World) (pid : Int) (calls : List ChildCall) : World :=
  { w with startup := Function.update w.startup pid calls }

def advance (w : World) (pid : Int) (done : Bool) : World :=
  match w.startup pid with
  | [] => w
  | .tcsetpgrp group :: rest => (w.begins pid rest).give group done
  | _ :: rest => w.begins pid rest

def observe (w : World) : Event → World
  | .shell (.tcsetpgrp group) done => w.give group done
  | .shell (.fork pid child) _ => w.begins pid child
  -- a process that is gone calls nothing any more
  | .shell (.waitpid _ _ (some (pid, .exited _))) _ => w.begins pid []
  | .shell (.waitpid _ _ (some (pid, .signaled _))) _ => w.begins pid []
  | .shell _ _ => w
  | .child pid done => w.advance pid done

/-- No child will take the terminal. -/
def Settled (w : World) : Prop := ∀ pid group, .tcsetpgrp group ∉ w.startup pid

/-- `SIGTTOU` is ignored, so the shell gets the terminal back when it asks for it; no process group is
-1. No program is reported as suspended or continued before it has come past its own `tcsetpgrp`. -/
def Allows (pgrp : Int) (w : World) : Event → Prop
  | .shell (.tcsetpgrp group) done => (group = pgrp → done = true) ∧ (group = -1 → done = false)
  | .shell (.waitpid _ _ (some (pid, .stopped _))) _ => ∀ group, .tcsetpgrp group ∉ w.startup pid
  | .shell (.waitpid _ _ (some (pid, .continued))) _ => ∀ group, .tcsetpgrp group ∉ w.startup pid
  | _ => True

end World

/-- The shell waits for a program only while the terminal is its own or the program's, continues a job
in its own terminal or that of the job, and does everything else in its own. -/
def InTerminal (pgrp : Int) (w : World) : Call → Prop
  | .waitpid target options _ =>
    w.owner = pgrp ∨ options.nohang = false ∧ target ≠ -1 ∧ w.owner = target
  | .kill target _ => w.owner = pgrp ∨ w.owner = -target
  | .chdir _ | .link _ _ | .unlink _ | .fork _ _ => w.owner = pgrp
  | .print _ _ | .tcsetpgrp _ => True

/-- Signals are for continuing jobs. -/
def Call.Spares : Call → Prop
  | .kill _ signal => signal = .sigcont
  | _ => True

abbrev Keeping (pgrp : Int) : (World → Prop) → Prop := Trace.Stable World.observe (World.Allows pgrp) Event.call

abbrev Leading (pgrp : Int) : (World → Prop) → List Call → (World → Prop) → Prop :=
  Trace.Guides World.observe (World.Allows pgrp) Event.call (InTerminal pgrp)

/-- The terminal is the shell's or that of `group`, and no child will take it. -/
structure World.Held (pgrp group : Int) (w : World) : Prop where
  owner : w.owner = pgrp ∨ w.owner = group
  settled : w.Settled

/-- The same, but the program `group` may have to take the terminal yet. -/
structure World.Starting (pgrp group : Int) (w : World) : Prop where
  owner : w.owner = pgrp ∨ w.owner = group
  only : ∀ pid taken, .tcsetpgrp taken ∈ w.startup pid → pid = group ∧ taken = group

variable {pgrp group pid : Int} {w : World} {I J K : World → Prop}

/-! ### What the children do meanwhile -/

theorem World.mem_begins {calls : List ChildCall} {other : Int} {call : ChildCall}
    (member : call ∈ (w.begins pid calls).startup other) : other = pid ∧ call ∈ calls ∨ call ∈ w.startup other := by
  change call ∈ Function.update w.startup pid calls other at member
  by_cases same : other = pid
  · rw [same, Function.update_self] at member
    exact Or.inl ⟨same, member⟩
  · rw [Function.update_of_ne same] at member
    exact Or.inr member

/-- The next call of a child leaves the terminal where it is, or takes it. -/
theorem World.advance_cases (w : World) (pid : Int) (done : Bool) :
    ((w.advance pid done).owner = w.owner ∨ .tcsetpgrp (w.advance pid done).owner ∈ w.startup pid) ∧
      ∀ other call, call ∈ (w.advance pid done).startup other → call ∈ w.startup other := by
  have tail : ∀ {call rest other left}, w.startup pid = call :: rest → left ∈ (w.begins pid rest).startup other →
      left ∈ w.startup other := by
    intro call rest other left calls member
    rcases World.mem_begins member with ⟨rfl, later⟩ | kept
    · rw [calls]
      exact List.mem_cons_of_mem _ later
    · exact kept
  unfold advance
  split
  · exact ⟨Or.inl rfl, fun _ _ member => member⟩
  · rename_i group rest calls
    cases done with
    | true => exact ⟨Or.inr (by rw [calls]; exact List.mem_cons_self), fun _ _ => tail calls⟩
    | false => exact ⟨Or.inl rfl, fun _ _ => tail calls⟩
  · rename_i call rest _ calls
    exact ⟨Or.inl rfl, fun _ _ => tail calls⟩

theorem held_keeping (pgrp group : Int) : Keeping pgrp (World.Held pgrp group) := by
  intro w e others _ held
  cases e with
  | shell call done => cases others
  | child pid done =>
    obtain ⟨moved, fewer⟩ := w.advance_cases pid done
    refine ⟨?_, fun other taken member => held.settled other taken (fewer other _ member)⟩
    rcases moved with same | taken
    · show (w.advance pid done).owner = pgrp ∨ (w.advance pid done).owner = group
      rw [same]
      exact held.owner
    · exact (held.settled pid _ taken).elim

theorem starting_keeping (pgrp group : Int) : Keeping pgrp (World.Starting pgrp group) := by
  intro w e others _ starting
  cases e with
  | shell call done => cases others
  | child pid done =>
    obtain ⟨moved, fewer⟩ := w.advance_cases pid done
    refine ⟨?_, fun other taken member => starting.only other taken (fewer other _ member)⟩
    rcases moved with same | taken
    · show (w.advance pid done).owner = pgrp ∨ (w.advance pid done).owner = group
      rw [same]
      exact starting.owner
    · exact Or.inr (starting.only pid _ taken).2

/-! ### The group of the shell -/

def SamePgrp (s s' : State) : Prop := s'.pgrp = s.pgrp

instance samePgrpRefl : Std.Refl SamePgrp := ⟨fun _ => rfl⟩

instance samePgrpTrans : IsTrans State SamePgrp := ⟨fun _ _ _ first second => Eq.trans second first⟩

theorem record_pgrp (call : Call) : Keeps SamePgrp (record call) := .of_modify fun _ => rfl

theorem setJobList_pgrp (jobList : JobList) : Keeps SamePgrp (setJobList jobList) := .of_modify fun _ => rfl

theorem waitpid_pgrp (target : Int) (options : WaitOptions) (result : Option (Int × Status)) :
    Keeps SamePgrp (waitpid target options result) := by
  intro s u s' run
  unfold waitpid at run
  obtain ⟨_, _, got, run⟩ := Run.bind run
  cases got
  split at run <;> cases run
  rfl

theorem fork_pgrp (pid : Int) (child : List ChildCall) : Keeps SamePgrp (fork pid child) := by
  intro s u s' run
  unfold fork at run
  obtain ⟨_, _, got, run⟩ := Run.bind run
  cases got
  split at run
  · cases run
    rfl
  · split at run <;> cases run
    rfl

theorem handleReport_pgrp (curPid : Int) (status : Status) : Keeps SamePgrp (handleReport curPid status) := by
  unfold handleReport
  refine Keeps.of_get.bind ?_
  intro s
  cases status with
  | exited code => exact (record_pgrp _).bind fun _ => setJobList_pgrp _
  | signaled signal => exact (record_pgrp _).bind fun _ => setJobList_pgrp _
  | stopped signal => exact (setJobList_pgrp _).bind fun _ => record_pgrp _
  | continued => exact (setJobList_pgrp _).bind fun _ => record_pgrp _

theorem checkBackgroundJob_pgrp (reported : List (Int × Status)) : Keeps SamePgrp (checkBackgroundJob reported) := by
  induction reported with
  | nil => exact waitpid_pgrp _ _ _
  | cons report rest ih =>
    exact (waitpid_pgrp _ _ _).bind fun _ => (handleReport_pgrp _ _).bind fun _ => ih

theorem handleForeground_pgrp (fgJid fgPid : Int) (result : Option (Int × Status)) :
    Keeps SamePgrp (handleForeground fgJid fgPid result) := by
  unfold handleForeground
  refine Keeps.of_get.bind ?_
  intro s
  split
  · exact (setJobList_pgrp _).bind fun _ => record_pgrp _
  · exact setJobList_pgrp _
  · exact (record_pgrp _).bind fun _ => setJobList_pgrp _
  · exact .of_pure _
  · exact .of_pure _

theorem addNewJob_pgrp (pid : Int) (state : ProcessState) (command : CString) (line : Int → String) :
    Keeps SamePgrp (addNewJob pid state command line) :=
  Keeps.of_get.bind fun _ => (setJobList_pgrp _).bind fun _ => (record_pgrp _).bind fun _ => .of_modify fun _ => rfl

theorem handleLaunched_pgrp (command : CString) (result : Option (Int × Status)) :
    Keeps SamePgrp (handleLaunched command result) := by
  unfold handleLaunched
  split
  · exact (record_pgrp _).bind fun _ => Keeps.of_get.bind fun _ => setJobList_pgrp _
  · exact addNewJob_pgrp _ _ _ _
  · exact .of_pure _
  · exact .of_pure _
  · exact .of_pure _

/-! ### Parts of the program -/

/-- The calls of a part of the program lead from the one condition to the other. -/
def Handover (I J : World → Prop) (s s' : State) : Prop :=
  s'.pgrp = s.pgrp ∧ ∃ calls, s'.trace = s.trace ++ calls ∧ (∀ call ∈ calls, call.Spares) ∧ Leading s.pgrp I calls J

theorem Handover.trans (first : Handover I J s s') (second : Handover J K s' s'') : Handover I K s s'' := by
  obtain ⟨same, calls, trace, spares, leads⟩ := first
  obtain ⟨same', more, trace', spares', leads'⟩ := second
  rw [same] at leads'
  refine ⟨same'.trans same, calls ++ more, by rw [trace', trace, List.append_assoc], ?_, leads.append leads'⟩
  exact List.forall_mem_append.mpr ⟨spares, spares'⟩

theorem Event.eq_shell {e : Event} {call : Call} (own : e.call = some call) : ∃ done, e = .shell call done := by
  cases e with
  | shell other done =>
    obtain rfl := Option.some.inj own
    exact ⟨done, rfl⟩
  | child pid done => cases own

/-- What a call asks of the terminal and leaves behind. -/
def Call.Moves (pgrp : Int) (I J : World → Prop) (call : Call) : Prop :=
  call.Spares ∧ ∀ (w : World) (done : Bool), w.Allows pgrp (.shell call done) → I w →
    InTerminal pgrp w call ∧ J (w.observe (.shell call done))

theorem call_handover {call : Call} (trace : s'.trace = s.trace ++ [call]) (same : SamePgrp s s') (own : s.pgrp = pgrp)
    (before : Keeping pgrp I) (after : Keeping pgrp J) (moves : call.Moves pgrp I J) : Handover I J s s' := by
  subst own
  refine ⟨same, [call], trace, by simpa using moves.1, Trace.guides_call before after ?_⟩
  intro w e own allowed holds
  obtain ⟨done, rfl⟩ := Event.eq_shell own
  exact moves.2 w done allowed holds

theorem waitpid_handover {target : Int} {options : WaitOptions} {result : Option (Int × Status)} (own : s.pgrp = pgrp)
    (before : Keeping pgrp I) (after : Keeping pgrp J) (moves : (Call.waitpid target options result).Moves pgrp I J)
    (run : waitpid target options result s = .ok (u, s')) : Handover I J s s' :=
  call_handover (waitpid_trace run).1 (waitpid_pgrp _ _ _ run) own before after moves

theorem handover_self (own : s.pgrp = pgrp) (keeping : Keeping pgrp I) (adds : Adds (Call.Moves pgrp I I) s s')
    (same : SamePgrp s s') : Handover I I s s' := by
  subst own
  obtain ⟨calls, trace, each⟩ := adds
  refine ⟨same, calls, trace, fun call member => (each call member).1, Trace.guides_self keeping ?_⟩
  intro call member w e own allowed holds
  obtain ⟨done, rfl⟩ := Event.eq_shell own
  exact (each call member).2 w done allowed holds

theorem print_moves (pgrp : Int) (I : World → Prop) (stream : Stream) (line : CString) :
    (Call.print stream line).Moves pgrp I I := ⟨trivial, fun _ _ _ holds => ⟨trivial, holds⟩⟩

theorem orPerror_handover {call : Call} {name : String} {error : Option CString} (own : s.pgrp = pgrp)
    (keeping : Keeping pgrp I) (moves : call.Moves pgrp I I) (run : orPerror call name error s = .ok (u, s')) :
    Handover I I s s' := by
  have same := orPerror_keeps record_pgrp call name error run
  suffices adds : Adds (Call.Moves pgrp I I) s s' from handover_self own keeping adds same
  unfold orPerror at run
  obtain ⟨_, s₁, recorded, rest⟩ := Run.bind run
  apply trans_of (Adds _) (record_adds moves recorded)
  cases error with
  | none =>
    obtain ⟨-, rfl⟩ := Run.pure rest
    exact refl_of _ _
  | some error => exact print_adds (print_moves _ _) _ _ rest

/-! ### Waiting and taking the terminal back -/

theorem World.Settled.begins (settled : w.Settled) {calls : List ChildCall} (others : ∀ group, .tcsetpgrp group ∉ calls) :
    (w.begins pid calls).Settled := by
  intro other taken member
  rcases World.mem_begins member with ⟨_, started⟩ | before
  · exact others taken started
  · exact settled other taken before

theorem World.Held.reported (held : w.Held pgrp group) (target : Int) (options : WaitOptions)
    (result : Option (Int × Status)) (done : Bool) : (w.observe (.shell (.waitpid target options result) done)).Held pgrp group := by
  have ended : ∀ pid, (w.begins pid []).Held pgrp group := fun pid => ⟨held.owner, held.settled.begins (by simp)⟩
  cases result with
  | none => exact held
  | some report =>
    obtain ⟨pid, status⟩ := report
    cases status with
    | exited code => exact ended pid
    | signaled signal => exact ended pid
    | stopped signal => exact held
    | continued => exact held

/-- A program that has been reported has started or never will. -/
theorem World.Starting.reported (starting : w.Starting pgrp group) {target : Int} {options : WaitOptions} {status : Status}
    {done : Bool} (allowed : w.Allows pgrp (.shell (.waitpid target options (some (group, status))) done)) :
    (w.observe (.shell (.waitpid target options (some (group, status))) done)).Held pgrp group := by
  have ended : (w.begins group []).Settled := by
    intro other taken member
    rcases World.mem_begins member with ⟨_, started⟩ | before
    · cases started
    · obtain ⟨rfl, -⟩ := starting.only other taken before
      change _ ∈ Function.update w.startup other [] other at member
      rw [Function.update_self] at member
      cases member
  have started : (∀ taken, .tcsetpgrp taken ∉ w.startup group) → w.Settled := by
    intro none other taken member
    obtain ⟨rfl, -⟩ := starting.only other taken member
    exact none taken member
  cases status with
  | exited code => exact ⟨starting.owner, ended⟩
  | signaled signal => exact ⟨starting.owner, ended⟩
  | stopped signal => exact ⟨starting.owner, started allowed⟩
  | continued => exact ⟨starting.owner, started allowed⟩

/-- The group that has the terminal when the shell has handed it to `group`, if there is such a group. -/
def handedTo (pgrp group : Int) : Int := if group = -1 then pgrp else group

theorem World.Held.given {done : Bool} (held : w.Held pgrp pgrp) (allowed : w.Allows pgrp (.shell (.tcsetpgrp group) done)) :
    (w.give group done).Held pgrp (handedTo pgrp group) := by
  have own : w.owner = pgrp := held.owner.elim id id
  cases done with
  | false => exact ⟨Or.inl own, held.settled⟩
  | true =>
    have group : group ≠ -1 := fun missing => by cases allowed.2 missing
    refine ⟨Or.inr ?_, held.settled⟩
    exact (if_neg group).symm

theorem handedTo_cases (owner : w.owner = pgrp ∨ w.owner = handedTo pgrp group) :
    w.owner = pgrp ∨ group ≠ -1 ∧ w.owner = group := by
  unfold handedTo at owner
  split at owner
  · exact Or.inl (owner.elim id id)
  · rename_i group
    exact owner.imp_right fun its => ⟨group, its⟩

theorem waitAny_moves (options : WaitOptions) (result : Option (Int × Status)) :
    (Call.waitpid (-1) options result).Moves pgrp (World.Held pgrp pgrp) (World.Held pgrp pgrp) := by
  refine ⟨trivial, fun w done _ held => ⟨?_, held.reported _ _ _ _⟩⟩
  exact Or.inl (held.owner.elim id id)

theorem takeTerminal_handover (own : s.pgrp = pgrp) (run : takeTerminal s = .ok (u, s')) :
    Handover (World.Held pgrp group) (World.Held pgrp pgrp) s s' := by
  subst own
  cases run
  refine call_handover rfl rfl rfl (held_keeping _ _) (held_keeping _ _) ⟨trivial, fun w done allowed held => ⟨trivial, ?_⟩⟩
  obtain rfl := allowed.1 rfl
  exact ⟨Or.inl rfl, held.settled⟩

/-! ### The commands -/

/-- What a command does with the terminal: it has it back. -/
def Returns (x : ShellM Unit) : Prop :=
  ∀ ⦃s u s'⦄, x s = .ok (u, s') → Handover (World.Held s.pgrp s.pgrp) (World.Held s.pgrp s.pgrp) s s'

theorem Returns.bind {x : ShellM Unit} {f : Unit → ShellM Unit} (first : Returns x) (second : ∀ u, Returns (f u)) :
    Returns (x >>= f) := by
  intro s u s'' run
  obtain ⟨v, s', run, rest⟩ := Run.bind run
  have before := first run
  have after := second v rest
  rw [before.1] at after
  exact before.trans after

/-- Calls that a shell makes in its own terminal. -/
theorem returns_self (adds : Adds (Call.Moves s.pgrp (World.Held s.pgrp s.pgrp) (World.Held s.pgrp s.pgrp)) s s')
    (same : SamePgrp s s') : Handover (World.Held s.pgrp s.pgrp) (World.Held s.pgrp s.pgrp) s s' :=
  handover_self rfl (held_keeping _ _) adds same

theorem checkBackgroundJob_returns (reported : List (Int × Status)) : Returns (checkBackgroundJob reported) := by
  intro s u s' run
  exact returns_self (checkBackgroundJob_adds (print_moves _ _) (fun _ => waitAny_moves _ _) reported run)
    (checkBackgroundJob_pgrp _ run)

theorem oneArgument_returns {name : String} {call : CString → Call}
    (moves : ∀ path pgrp, (call path).Moves pgrp (World.Held pgrp pgrp) (World.Held pgrp pgrp)) (p : Parser)
    (answers : Answers) : Returns (oneArgument name call p answers) := by
  intro s u s' run
  unfold oneArgument at run
  split at run
  · exact returns_self (print_adds (print_moves _ _) _ _ run) (record_pgrp _ run)
  · obtain ⟨arg, s₁, read, rest⟩ := Run.bind run
    obtain ⟨-, rfl⟩ := argument_ok read
    exact orPerror_handover rfl (held_keeping _ _) (moves arg _) rest

theorem ln_returns (p : Parser) (answers : Answers) : Returns (ln p answers) := by
  intro s u s' run
  unfold ln at run
  split at run
  · exact returns_self (print_adds (print_moves _ _) _ _ run) (record_pgrp _ run)
  · obtain ⟨old, s₁, read, rest⟩ := Run.bind run
    obtain ⟨-, rfl⟩ := argument_ok read
    obtain ⟨new, s₂, read', rest'⟩ := Run.bind rest
    obtain ⟨-, rfl⟩ := argument_ok read'
    have moves : (Call.link old new).Moves s₂.pgrp (World.Held s₂.pgrp s₂.pgrp) (World.Held s₂.pgrp s₂.pgrp) :=
      ⟨trivial, fun w done _ held => ⟨held.owner.elim id id, held⟩⟩
    exact orPerror_handover rfl (held_keeping _ _) moves rest'

theorem printJobs_returns (answers : Answers) (elements : List Job) (i : Nat) : Returns (printJobs answers elements i) := by
  induction elements generalizing i with
  | nil =>
    intro s u s' run
    cases run
    exact returns_self (refl_of _ _) rfl
  | cons cur rest ih =>
    unfold printJobs
    split
    · intro s u s' run
      obtain ⟨_, _, _, run⟩ := Run.bind run
      obtain ⟨_, _, _, run⟩ := Run.bind run
      cases run
    · apply Returns.bind _ fun _ => ih (i + 1)
      intro s u s' run
      exact returns_self (print_adds (print_moves _ _) _ _ run) (record_pgrp _ run)

theorem jobs_returns (answers : Answers) : Returns (jobs answers) := by
  intro s u s' run
  obtain ⟨_, _, got, run⟩ := Run.bind run
  cases got
  exact printJobs_returns answers _ _ run

theorem handleForeground_adds {P : Call → Prop} (prints : ∀ stream line, P (.print stream line)) (fgJid fgPid : Int)
    (result : Option (Int × Status)) : Keeps (Adds P) (handleForeground fgJid fgPid result) := by
  unfold handleForeground
  refine Keeps.of_get.bind ?_
  intro s
  split
  · exact (setJobList_adds _).bind fun _ => print_adds prints _ _
  · exact setJobList_adds _
  · exact (print_adds prints _ _).bind fun _ => setJobList_adds _
  · exact .of_pure _
  · exact .of_pure _

theorem namedJob_handover {name : String} {jid pid : Int} (keeping : Keeping s.pgrp I)
    (run : namedJob name p s = .ok ((jid, pid), s')) : Handover I I s s' :=
  handover_self rfl keeping (namedJob_adds (print_moves _ _) name p run) (namedJob_keeps record_pgrp name p run)

/-- The job gets the terminal before it is continued; for a job that is not there it stays with the
shell, which then waits for any child. -/
theorem fg_returns (p : Parser) (answers : Answers) : Returns (fg p answers) := by
  intro s u s' run
  unfold fg at run
  obtain ⟨⟨fgJid, fgPid⟩, s₁, found, run⟩ := Run.bind run
  obtain ⟨_, s₂, handed, run⟩ := Run.bind run
  obtain ⟨_, s₃, killed, run⟩ := Run.bind run
  obtain ⟨_, s₄, waited, run⟩ := Run.bind run
  obtain ⟨_, s₅, handled, taken⟩ := Run.bind run
  let owner := handedTo s.pgrp fgPid
  have h₁ : Handover (World.Held s.pgrp s.pgrp) (World.Held s.pgrp s.pgrp) s s₁ := namedJob_handover (held_keeping _ _) found
  have h₂ : Handover (World.Held s.pgrp s.pgrp) (World.Held s.pgrp owner) s₁ s₂ := by
    have moves : (Call.tcsetpgrp fgPid).Moves s.pgrp (World.Held s.pgrp s.pgrp) (World.Held s.pgrp owner) :=
      ⟨trivial, fun w done allowed held => ⟨trivial, held.given allowed⟩⟩
    cases handed
    exact call_handover rfl rfl h₁.1 (held_keeping _ _) (held_keeping _ _) moves
  have own₂ : s₂.pgrp = s.pgrp := h₂.1.trans h₁.1
  have h₃ : Handover (World.Held s.pgrp owner) (World.Held s.pgrp owner) s₂ s₃ := by
    have moves : (Call.kill (-fgPid) .sigcont).Moves s.pgrp (World.Held s.pgrp owner) (World.Held s.pgrp owner) := by
      refine ⟨rfl, fun w done _ held => ⟨?_, held⟩⟩
      rcases handedTo_cases held.owner with own | ⟨_, its⟩
      · exact Or.inl own
      · exact Or.inr (its.trans (neg_neg _).symm)
    exact orPerror_handover own₂ (held_keeping _ _) moves killed
  have own₃ : s₃.pgrp = s.pgrp := h₃.1.trans own₂
  have h₄ : Handover (World.Held s.pgrp owner) (World.Held s.pgrp owner) s₃ s₄ := by
    have moves : (Call.waitpid fgPid ⟨false, true, false⟩ answers.waited).Moves s.pgrp (World.Held s.pgrp owner)
        (World.Held s.pgrp owner) := by
      refine ⟨trivial, fun w done _ held => ⟨?_, held.reported _ _ _ _⟩⟩
      rcases handedTo_cases held.owner with own | ⟨group, its⟩
      · exact Or.inl own
      · exact Or.inr ⟨rfl, group, its⟩
    exact waitpid_handover own₃ (held_keeping _ _) (held_keeping _ _) moves waited
  have own₄ : s₄.pgrp = s.pgrp := h₄.1.trans own₃
  have h₅ : Handover (World.Held s.pgrp owner) (World.Held s.pgrp owner) s₄ s₅ :=
    handover_self own₄ (held_keeping _ _) (handleForeground_adds (print_moves _ _) _ _ _ handled)
      (handleForeground_pgrp _ _ _ handled)
  have h₆ : Handover (World.Held s.pgrp owner) (World.Held s.pgrp s.pgrp) s₅ s' :=
    takeTerminal_handover (h₅.1.trans own₄) taken
  exact ((((h₁.trans h₂).trans h₃).trans h₄).trans h₅).trans h₆

theorem bg_returns (p : Parser) (answers : Answers) : Returns (bg p answers) := by
  intro s u s' run
  unfold bg at run
  obtain ⟨⟨bgJid, bgPid⟩, s₁, found, run⟩ := Run.bind run
  obtain ⟨_, s₂, killed, run⟩ := Run.bind run
  have h₁ : Handover (World.Held s.pgrp s.pgrp) (World.Held s.pgrp s.pgrp) s s₁ := namedJob_handover (held_keeping _ _) found
  have moves : (Call.kill (-bgPid) .sigcont).Moves s.pgrp (World.Held s.pgrp s.pgrp) (World.Held s.pgrp s.pgrp) :=
    ⟨rfl, fun w done _ held => ⟨Or.inl (held.owner.elim id id), held⟩⟩
  have h₂ := h₁.trans (orPerror_handover h₁.1 (held_keeping _ _) moves killed)
  cases run
  exact h₂

/-! ### Launching a program -/

theorem childCalls_start (p : Parser) (name : CString) (pid : Int) (answers : ChildAnswers) :
    ∃ later, childCalls p name pid answers = (.setpgid :: if p.isBgJob = 0 then [.tcsetpgrp pid] else []) ++ later ∧
      ∀ group, .tcsetpgrp group ∉ later := by
  have fails : ∀ file error group, ChildCall.tcsetpgrp group ∉ [.print .stderr (perrorText file error), .exit 1] := by simp
  have input : ∀ group, ChildCall.tcsetpgrp group ∉
      (if p.inputRedir ≠ 0 then [.close 0, .openFile p.inputFile .read] else []) := by
    intro group
    split <;> simp
  have output : ∀ (modes : List OpenMode) group, ChildCall.tcsetpgrp group ∉
      (if p.outputRedir ≠ 0 then .close 1 :: modes.map (.openFile p.outputFile) else []) := by
    intro modes group
    split <;> simp
  have execv : ∀ group, ChildCall.tcsetpgrp group ∉ [.defaultSignals, .execv name p.args] := by simp
  unfold childCalls
  simp only [List.append_assoc]
  generalize (if p.outputRedir = 1 then [OpenMode.truncate] else if p.outputRedir = 2 then [OpenMode.append] else []) = modes
  generalize (if p.inputRedir ≠ 0 then answers.input else none) = noInput
  generalize (if modes ≠ [] then answers.output else none) = noOutput
  cases noInput with
  | some error =>
    refine ⟨_, rfl, fun group => ?_⟩
    simp only [List.mem_append, not_or]
    exact ⟨input group, fails _ _ group⟩
  | none =>
    cases noOutput with
    | some error =>
      refine ⟨_, rfl, fun group => ?_⟩
      simp only [List.mem_append, not_or]
      exact ⟨input group, output modes group, fails _ _ group⟩
    | none =>
      cases answers.execv with
      | some error =>
        refine ⟨_, rfl, fun group => ?_⟩
        simp only [List.mem_append, not_or]
        exact ⟨input group, output modes group, execv group, fails _ _ group⟩
      | none =>
        refine ⟨_, rfl, fun group => ?_⟩
        simp only [List.mem_append, not_or]
        exact ⟨input group, output modes group, execv group⟩

/-- Only a program in the foreground takes the terminal, and for its own group. -/
theorem childCalls_tcsetpgrp {name : CString} {answers : ChildAnswers} (member : .tcsetpgrp group ∈ childCalls p name pid answers) :
    p.isBgJob = 0 ∧ group = pid := by
  obtain ⟨later, same, others⟩ := childCalls_start p name pid answers
  rw [same] at member
  rcases List.mem_append.mp member with start | rest
  · split at start
    · rename_i foreground
      exact ⟨foreground, by simpa using start⟩
    · simp at start
  · exact (others group rest).elim

theorem fork_handover {child : List ChildCall} (own : s.pgrp = pgrp) (after : Keeping pgrp J)
    (begins : ∀ w : World, w.Held pgrp pgrp → J (w.begins pid (if pid = -1 then [] else child)))
    (run : fork pid child s = .ok (u, s')) : Handover (World.Held pgrp pgrp) J s s' := by
  have same := fork_pgrp _ _ run
  have moves : ∀ calls, calls = (if pid = -1 then [] else child) → (Call.fork pid calls).Moves pgrp (World.Held pgrp pgrp) J := by
    rintro calls rfl
    exact ⟨trivial, fun w done _ held => ⟨held.owner.elim id id, begins w held⟩⟩
  unfold fork at run
  obtain ⟨_, _, got, run⟩ := Run.bind run
  cases got
  split at run
  · rename_i failed
    cases run
    exact call_handover rfl same own (held_keeping _ _) after (moves _ (if_pos failed).symm)
  · rename_i succeeds
    split at run
    · cases run
      exact call_handover rfl same own (held_keeping _ _) after (moves _ (if_neg succeeds).symm)
    · cases run

/-- A program in the foreground takes the terminal at its own time, but before the shell is back from
waiting for it. -/
theorem launched_handover {child : List ChildCall} {options : WaitOptions} {result : Option (Int × Status)} {v : Unit}
    (blocks : options.nohang = false) (takes : ∀ group, .tcsetpgrp group ∈ child → group = pid)
    (forked : fork pid child s = .ok (u, s')) (waited : waitpid pid options result s' = .ok (v, s'')) :
    Handover (World.Held s.pgrp s.pgrp) (World.Held s.pgrp (handedTo s.pgrp pid)) s s'' := by
  by_cases failed : pid = -1
  · have h₁ : Handover (World.Held s.pgrp s.pgrp) (World.Held s.pgrp s.pgrp) s s' := by
      refine fork_handover rfl (held_keeping _ _) (fun w held => ⟨held.owner, held.settled.begins ?_⟩) forked
      simp [failed]
    rw [handedTo, if_pos failed]
    subst failed
    exact h₁.trans (waitpid_handover h₁.1 (held_keeping _ _) (held_keeping _ _) (waitAny_moves _ _) waited)
  · obtain ⟨positive, _, _, children⟩ := fork_ok failed forked
    have h₁ : Handover (World.Held s.pgrp s.pgrp) (World.Starting s.pgrp pid) s s' := by
      refine fork_handover rfl (starting_keeping _ _) (fun w held => ⟨Or.inl (held.owner.elim id id), ?_⟩) forked
      intro other taken member
      rw [if_neg failed] at member
      rcases World.mem_begins member with ⟨rfl, started⟩ | before
      · exact ⟨rfl, takes taken started⟩
      · exact (held.settled other taken before).elim
    have child : pid ∈ s'.children := by
      rw [children]
      exact Finset.mem_insert_self _ _
    obtain ⟨status, rfl, _⟩ := waitpid_child blocks child positive (waitpid_ok waited).1
    rw [handedTo, if_neg failed]
    have moves : (Call.waitpid pid options (some (pid, status))).Moves s.pgrp (World.Starting s.pgrp pid)
        (World.Held s.pgrp pid) := by
      refine ⟨trivial, fun w done allowed starting => ⟨?_, starting.reported allowed⟩⟩
      exact starting.owner.imp_right fun its => ⟨blocks, failed, its⟩
    exact h₁.trans (waitpid_handover h₁.1 (starting_keeping _ _) (held_keeping _ _) moves waited)

theorem launch_returns (p : Parser) (command : CString) (answers : Answers) : Returns (launch p command answers) := by
  intro s u s' run
  unfold launch at run
  obtain ⟨_, s₁, forked, run⟩ := Run.bind run
  split at run
  · rename_i foreground
    obtain ⟨_, s₂, waited, run⟩ := Run.bind run
    obtain ⟨_, s₃, handled, taken⟩ := Run.bind run
    have h₁₂ : Handover (World.Held s.pgrp s.pgrp) (World.Held s.pgrp (handedTo s.pgrp answers.forked)) s s₂ :=
      launched_handover rfl (fun group member => (childCalls_tcsetpgrp member).2) forked waited
    have h₃ : Handover (World.Held s.pgrp (handedTo s.pgrp answers.forked))
        (World.Held s.pgrp (handedTo s.pgrp answers.forked)) s₂ s₃ :=
      handover_self h₁₂.1 (held_keeping _ _) (handleLaunched_adds (print_moves _ _) command answers.waited handled)
        (handleLaunched_pgrp _ _ handled)
    exact (h₁₂.trans h₃).trans (takeTerminal_handover (h₃.1.trans h₁₂.1) taken)
  · rename_i background
    have h₁ : Handover (World.Held s.pgrp s.pgrp) (World.Held s.pgrp s.pgrp) s s₁ := by
      refine fork_handover rfl (held_keeping _ _) (fun w held => ⟨held.owner, held.settled.begins ?_⟩) forked
      intro group member
      split at member
      · cases member
      · exact background (childCalls_tcsetpgrp member).1
    exact h₁.trans (handover_self h₁.1 (held_keeping _ _) (addNewJob_adds (print_moves _ _) _ _ _ _ run)
      (addNewJob_pgrp _ _ _ _ run))

theorem runCommand_returns (p : Parser) (name : CString) (answers : Answers) : Returns (runCommand p name answers) := by
  have chdir : ∀ path pgrp, (Call.chdir path).Moves pgrp (World.Held pgrp pgrp) (World.Held pgrp pgrp) :=
    fun _ _ => ⟨trivial, fun _ _ _ held => ⟨held.owner.elim id id, held⟩⟩
  have unlink : ∀ path pgrp, (Call.unlink path).Moves pgrp (World.Held pgrp pgrp) (World.Held pgrp pgrp) :=
    fun _ _ => ⟨trivial, fun _ _ _ held => ⟨held.owner.elim id id, held⟩⟩
  unfold runCommand
  split
  · exact oneArgument_returns chdir p answers
  split
  · exact ln_returns p answers
  split
  · exact oneArgument_returns unlink p answers
  split
  · intro s u s' run
    obtain ⟨_, _, _, run⟩ := Run.bind run
    cases run
  split
  · exact jobs_returns answers
  split
  · exact fg_returns p answers
  split
  · exact bg_returns p answers
  · exact launch_returns p name answers

theorem executeCommand_returns (command : CString) (answers : Answers) : Returns (executeCommand command answers) := by
  intro s u s' run
  unfold executeCommand at run
  obtain ⟨p, s₁, parsed, run⟩ := Run.bind run
  have h₁ : Handover (World.Held s.pgrp s.pgrp) (World.Held s.pgrp s.pgrp) s s₁ :=
    returns_self (parse_adds (print_moves _ _) command parsed) (parse_keeps record_pgrp command parsed)
  cases args : p.args with
  | nil =>
    simp only [args] at run
    have h₂ := checkBackgroundJob_returns answers.reported run
    rw [h₁.1] at h₂
    exact h₁.trans h₂
  | cons name rest =>
    simp only [args] at run
    have both := (runCommand_returns p name answers).bind fun _ => checkBackgroundJob_returns answers.reported
    have h₂ := both run
    rw [h₁.1] at h₂
    exact h₁.trans h₂

/-! ### Runs -/

theorem run_handover {ok : State → Line → Prop} (reachable : Reachable pgrp ok s) :
    Handover (World.Held pgrp pgrp) (World.Held pgrp pgrp) (State.initial pgrp) s := by
  apply reachable.invariant (P := Handover (World.Held pgrp pgrp) (World.Held pgrp pgrp) (State.initial pgrp))
  · exact returns_self (s := State.initial pgrp) (refl_of _ _) rfl
  · intro s s' line before _ run
    obtain ⟨u, returned⟩ := step_returns run
    have more := executeCommand_returns _ _ returned
    rw [show s.pgrp = pgrp from before.1] at more
    exact before.trans more

/-- While the shell runs it sends no signal but `SIGCONT`. -/
theorem run_spares {ok : State → Line → Prop} (reachable : Reachable pgrp ok s) : ∀ call ∈ s.trace, call.Spares := by
  obtain ⟨_, calls, trace, spares, _⟩ := run_handover reachable
  rw [trace]
  exact spares

/-- Every child makes the calls of its start as soon as it is forked. -/
def Call.promptly : Call → List Event
  | .fork pid child => .shell (.fork pid child) true :: child.map fun _ => .child pid true
  | .tcsetpgrp group => [.shell (.tcsetpgrp group) (group != -1)]
  | call => [.shell call true]

theorem promptly_calls (calls : List Call) : (calls.flatMap Call.promptly).filterMap Event.call = calls := by
  induction calls with
  | nil => rfl
  | cons call calls ih =>
    have first : call.promptly.filterMap Event.call = [call] := by
      cases call with
      | fork pid child =>
        have none : (child.map fun _ => Event.child pid true).filterMap Event.call = [] := by
          simp [Event.call]
        exact congrArg (Call.fork pid child :: ·) none
      | _ => rfl
    rw [List.flatMap_cons, List.filterMap_append, first, ih]
    rfl

theorem World.starts (pgrp : Int) (child : List ChildCall) (pid : Int) : ∀ w : World, w.startup pid = child →
    (∀ other, other ≠ pid → w.startup other = []) →
      Trace.Along World.observe (World.Allows pgrp) w (child.map fun _ => .child pid true) ∧
        ∀ other, ((child.map fun _ => Event.child pid true).foldl World.observe w).startup other = [] := by
  induction child with
  | nil =>
    intro w own others
    refine ⟨trivial, fun other => ?_⟩
    by_cases same : other = pid
    · rw [same]
      exact own
    · exact others other same
  | cons call rest ih =>
    intro w own others
    have next : (w.advance pid true).startup = Function.update w.startup pid rest := by
      unfold World.advance
      rw [own]
      cases call <;> rfl
    obtain ⟨along, last⟩ := ih (w.advance pid true) (by rw [next, Function.update_self]) fun other different => by
      rw [next, Function.update_of_ne different, others other different]
    exact ⟨⟨trivial, along⟩, last⟩

theorem promptly_step (positive : 0 < pgrp) (idle : ∀ pid, w.startup pid = []) (call : Call) :
    Trace.Along World.observe (World.Allows pgrp) w call.promptly ∧
      ∀ pid, (call.promptly.foldl World.observe w).startup pid = [] := by
  have ended : ∀ pid other, (w.begins pid []).startup other = [] := by
    intro pid other
    exact List.eq_nil_iff_forall_not_mem.mpr fun call member => by
      rcases World.mem_begins member with ⟨_, started⟩ | before
      · cases started
      · rw [idle] at before
        cases before
  cases call with
  | fork pid child =>
    have others : ∀ other, other ≠ pid → (w.begins pid child).startup other = [] := fun other different =>
      (Function.update_of_ne different ..).trans (idle other)
    obtain ⟨along, last⟩ := World.starts pgrp child pid (w.begins pid child) (Function.update_self ..) others
    exact ⟨⟨trivial, along⟩, last⟩
  | tcsetpgrp group =>
    refine ⟨⟨⟨fun own => ?_, fun missing => by simp [missing]⟩, trivial⟩, fun pid => ?_⟩
    · have different : group ≠ -1 := by omega
      simpa using different
    · show (w.give group (group != -1)).startup pid = []
      unfold World.give
      split <;> exact idle pid
  | waitpid target options result =>
    cases result with
    | none => exact ⟨⟨trivial, trivial⟩, idle⟩
    | some report =>
      obtain ⟨pid, status⟩ := report
      have started : ∀ group, .tcsetpgrp group ∉ w.startup pid := by simp [idle pid]
      cases status with
      | exited code => exact ⟨⟨trivial, trivial⟩, ended pid⟩
      | signaled signal => exact ⟨⟨trivial, trivial⟩, ended pid⟩
      | stopped signal => exact ⟨⟨started, trivial⟩, idle⟩
      | continued => exact ⟨⟨started, trivial⟩, idle⟩
  | _ => exact ⟨⟨trivial, trivial⟩, idle⟩

/-- Any calls of the shell can be made among children that start promptly. -/
theorem promptly_allowed (positive : 0 < pgrp) (calls : List Call) (idle : ∀ pid, w.startup pid = []) :
    Trace.Along World.observe (World.Allows pgrp) w (calls.flatMap Call.promptly) := by
  induction calls generalizing w with
  | nil => trivial
  | cons call calls ih =>
    obtain ⟨first, idle⟩ := promptly_step positive idle call
    exact Trace.along_append.mpr ⟨first, ih idle⟩

/-- However the children start among the calls of the shell, the terminal is the shell's between two
lines, and the shell made each of its calls in a terminal in which it may. -/
theorem terminal_returned {ok : State → Line → Prop} {events : List Event} (reachable : Reachable pgrp ok s)
    (calls : events.filterMap Event.call = s.trace)
    (allowed : Trace.Along World.observe (World.Allows pgrp) (World.initial pgrp) events) :
    (events.foldl World.observe (World.initial pgrp)).owner = pgrp ∧
      Trace.Along World.observe (fun w e => ∀ call ∈ e.call, InTerminal pgrp w call ∧ call.Spares) (World.initial pgrp)
        events := by
  obtain ⟨_, made, trace, spares, leads⟩ := run_handover reachable
  have start : (World.initial pgrp).Held pgrp pgrp := ⟨Or.inl rfl, fun _ _ member => by cases member⟩
  have all : events.filterMap Event.call = made := calls.trans trace
  obtain ⟨along, held⟩ := leads (World.initial pgrp) events all allowed start
  refine ⟨held.owner.elim id id, along.imp ?_⟩
  intro w e member own call mine
  exact ⟨own call mine, spares call (all ▸ List.mem_filterMap.mpr ⟨e, member, mine⟩)⟩

theorem terminal_returned_fg : ∃ (s : State) (events : List Event),
    Transition.follow State.step (fun _ _ => True) stopAndContinue (State.initial 1) = some s ∧
      events.filterMap Event.call = s.trace ∧ (events.foldl World.observe (World.initial 1)).owner = 1 := by
  obtain ⟨s, found⟩ := Option.isSome_iff_exists.mp
    (show (Transition.follow State.step (fun _ _ => True) stopAndContinue (State.initial 1)).isSome = true by decide +kernel)
  have calls := promptly_calls s.trace
  have allowed := promptly_allowed (w := World.initial 1) (show 0 < (1 : Int) by decide) s.trace fun _ => rfl
  exact ⟨s, _, found, calls, (terminal_returned (Transition.follow_reachable .initial found) calls allowed).1⟩

/-- A program that is stopped before it comes to its `tcsetpgrp` takes the terminal from the prompt. -/
example : ([Event.shell (.fork 8 [.setpgid, .tcsetpgrp 8]) true, .shell (.waitpid 8 ⟨false, true, true⟩ (some (8, .stopped 19))) true,
    .shell (.tcsetpgrp 1) true, .child 8 true, .child 8 true].foldl World.observe (World.initial 1)).owner = 8 := by decide

end Cs1330.Shell
