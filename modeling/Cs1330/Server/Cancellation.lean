import Cs1330.Db.Exclusion
import Cs1330.Server.Clients

/-!
# Cancellation and the locks

The client threads once more, with the mutexes and the rwlocks they hold from one step to the
next. A thread stops before and in each section under a mutex, in each call at which a requested
cancellation may be acted on, and in the calls into the database at every lock operation. The
list of clients is given by the positions of the threads: a thread is listed from the section in
which it puts its client into the list to the one in which it takes it out.
-/

namespace Cs1330.Server.Locks

inductive Mutex where
  | go | list | server
  deriving DecidableEq, Repr

/-- Where a client thread stands in `run_client` and what it calls. -/
inductive Pc where
  /-- before the test of `accepting_clients` -/
  | start
  /-- before `lock(&server_mutex)` -/
  | admitted
  | counting
  /-- before `lock(&thread_list_mutex)` -/
  | counted
  | inserting
  /-- in the output of `comm_serve`, with `thread_cleanup` pushed -/
  | replying
  /-- in the `fgets` of `comm_serve` -/
  | reading
  /-- before `lock(&go_mutex)` -/
  | ready
  /-- before the test of `stopped`, with `cleanup_unlock_mutex` pushed -/
  | testing
  /-- in `pthread_cond_wait` -/
  | blocked
  | passing
  /-- in `interpret_command` below the loops over `files` files, up to its `fopen` -/
  | interpreting (files : Nat)
  /-- in the loop over a file: `fgets`, `pthread_testcancel`, `fclose` -/
  | scanning (files : Nat)
  /-- in `db_query`, `db_add` or `db_remove` -/
  | inCall (files : Nat)
  /-- cancelled in `pthread_cond_wait`, which takes the mutex again -/
  | unblocking
  /-- in `cleanup_unlock_mutex` -/
  | releasing
  /-- before `lock(&thread_list_mutex)` in `thread_cleanup` -/
  | leaving
  | unlinking
  /-- before `lock(&server_mutex)` -/
  | unlinked
  | uncounting
  /-- in the `fclose` of `comm_shutdown` -/
  | closing
  /-- in the `perror` of `comm_shutdown`, when `fclose` has failed -/
  | reporting
  /-- before `pthread_cond_signal` -/
  | signalling
  /-- before `unlock(&server_mutex)` -/
  | unlocking
  | terminated
  deriving DecidableEq, Repr

/-- The mutex that the thread has locked. -/
def Pc.holds : Pc → Option Mutex
  | counting | uncounting | closing | reporting | signalling | unlocking => some .server
  | inserting | unlinking => some .list
  | testing | passing | releasing => some .go
  | _ => none

/-- The client is in the list. -/
def Pc.listed : Pc → Bool
  | start | admitted | counting | counted | inserting => false
  | unlinking | unlinked | uncounting | closing | reporting | signalling | unlocking | terminated => false
  | _ => true

/-- Where `interpret_command` returns to: `run_client`, or the loop over a file. -/
def Pc.returned : Nat → Pc
  | 0 => replying
  | files + 1 => scanning files

structure Thread where
  pc : Pc
  /-- `pthread_cancel` was called for the thread -/
  cancelled : Bool
  /-- the cancellation was acted on, which disables further ones -/
  exiting : Bool
  incremented : Bool
  decremented : Bool
  signalled : Bool
  deriving DecidableEq, Repr

structure State where
  db : Db.System
  owner : Mutex → Option ClientId
  threads : ClientId → Option Thread
  created : Nat
  numClientThreads : Int
  acceptingClients : Int
  stopped : Bool
  main : MainPc

/-- What a call of the client thread meets. -/
inductive Input where
  | succeeds
  /-- the connection is closed, a file is at its end, or `fclose` cannot write what is left -/
  | fails
  /-- the line in hand is a `q`, `a` or `d` command -/
  | command (call : Db.Call)
  /-- the line in hand is an `f` command and its file can be opened -/
  | file
  deriving DecidableEq, Repr

namespace State

def initial : State := ⟨Db.System.initial, fun _ => none, fun _ => none, 0, 0, 1, false, .commands⟩

def goto (s : State) (c : ClientId) (thread : Thread) (pc : Pc) : State :=
  { s with threads := Function.update s.threads c (some { thread with pc := pc }) }

def lock (s : State) (c : ClientId) (thread : Thread) (m : Mutex) (pc : Pc) : Option State :=
  if s.owner m = none then some ({ s with owner := Function.update s.owner m (some c) }.goto c thread pc) else none

def unlock (s : State) (c : ClientId) (thread : Thread) (m : Mutex) (pc : Pc) : State :=
  { s with owner := Function.update s.owner m none }.goto c thread pc

/-- A step of a call into the database, after which the thread stands where `pc` says. -/
def database (s : State) (c : ClientId) (thread : Thread) (action : Db.Action) (pc : Db.System → Pc) :
    Except Db.Fault (Option State) := do
  match ← s.db.act action with
  | none => return none
  | some db => return some ({ s with db := db }.goto c thread (pc db))

def interpret (s : State) (c : ClientId) (thread : Thread) (files : Nat) : Input → Except Db.Fault (Option State)
  | .command call => s.database c thread (.invoke c call) fun _ => .inCall files
  | .file => return some (s.goto c thread (.scanning files))
  | _ => return some (s.goto c thread (.returned files))

/-- A step of `run_client`. -/
def runClient (s : State) (c : ClientId) (input : Input) : Except Db.Fault (Option State) :=
  match s.threads c with
  | none => return none
  | some thread =>
    match thread.pc with
    | .start => return some (s.goto c thread (if s.acceptingClients = 0 then .terminated else .admitted))
    | .admitted => return s.lock c thread .server .counting
    | .counting =>
      return some ({ s with numClientThreads := s.numClientThreads + 1 }.unlock c { thread with incremented := true } .server
        .counted)
    | .counted => return s.lock c thread .list .inserting
    | .inserting => return some (s.unlock c thread .list .replying)
    | .replying => return some (s.goto c thread (if input = .fails then .leaving else .reading))
    | .reading => return some (s.goto c thread (if input = .fails then .leaving else .ready))
    | .ready => return s.lock c thread .go .testing
    | .testing => return some (if s.stopped then s.unlock c thread .go .blocked else s.goto c thread .passing)
    | .blocked => return s.lock c thread .go .testing
    | .passing => return some (s.unlock c thread .go (.interpreting 0))
    | .interpreting files => s.interpret c thread files input
    | .scanning files =>
      return some (s.goto c thread (if input = .fails then .returned files else .interpreting (files + 1)))
    | .inCall files =>
      s.database c thread (.advance c) fun db => if (db.threads c).isNone then .returned files else .inCall files
    | .unblocking => return s.lock c thread .go .releasing
    | .releasing => return some (s.unlock c thread .go .leaving)
    | .leaving => return s.lock c thread .list .unlinking
    | .unlinking => return some (s.unlock c thread .list .unlinked)
    | .unlinked => return s.lock c thread .server .uncounting
    | .uncounting =>
      return some ({ s with numClientThreads := s.numClientThreads - 1 }.goto c { thread with decremented := true } .closing)
    | .closing => return some (s.goto c thread (if input = .fails then .reporting else .signalling))
    | .reporting => return some (s.goto c thread .signalling)
    | .signalling => return some (s.goto c { thread with signalled := true } .unlocking)
    | .unlocking => return some (s.unlock c thread .server .terminated)
    | .terminated => return none

/-- The thread is in `pthread_rwlock_rdlock` or `pthread_rwlock_wrlock`. -/
def inRwlock : Option Db.Activity → Bool
  | some ⟨_, _, .start⟩ => true
  | some ⟨_, _, .wait _ _⟩ => true
  | _ => false

/-- A requested cancellation is acted on, and the handlers that are pushed run. None is pushed
while `thread_cleanup` runs, and none unlocks a node. -/
def actOnCancel (s : State) (c : ClientId) : Option State :=
  match s.threads c with
  | none => none
  | some thread =>
    if thread.cancelled = true ∧ thread.exiting = false then
      match thread.pc with
      | .replying | .reading | .interpreting _ | .scanning _ => some (s.goto c { thread with exiting := true } .leaving)
      | .blocked => some (s.goto c { thread with exiting := true } .unblocking)
      | .inCall _ =>
        if inRwlock (s.db.threads c) then
          some ({ s with db.threads := Function.update s.db.threads c none }.goto c { thread with exiting := true } .leaving)
        else none
      | .closing | .reporting => some (s.goto c { thread with exiting := true } .terminated)
      | _ => none
    else none

def pthreadCancel (thread : Thread) : Thread := { thread with cancelled := true }

def deleteAll (s : State) : Option State :=
  if s.owner .list = none then
    some { s with threads := fun c => (s.threads c).map fun thread => if thread.pc.listed then pthreadCancel thread else thread }
  else none

def setStopped (s : State) (stopped : Bool) : Option State :=
  if s.owner .go = none then some { s with stopped := stopped } else none

/-- A step of `main` up to `db_cleanup`. -/
def runMain (s : State) (command : MainCommand) : Option State :=
  match s.main with
  | .commands =>
    match command with
    | .stop => s.setStopped true
    | .go => s.setStopped false
    | .print => some s
    | .eof => some { s with main := .closing }
  | .closing => some { s with acceptingClients := 0, main := .refusing }
  | .refusing => s.deleteAll.map fun s => { s with main := .waiting }
  | .waiting => if s.owner .server = none ∧ s.numClientThreads ≤ 0 then some { s with main := .cleaning } else none
  | .cleaning => none
  | .cleaned => none

def connect (s : State) : State :=
  { s with
    threads := Function.update s.threads s.created (some ⟨.start, false, false, false, false, false⟩)
    created := s.created + 1 }

end State

inductive Action where
  | connect
  | client (client : ClientId) (input : Input)
  | cancel (client : ClientId)
  /-- the signal handler gets SIGINT -/
  | sigint
  | main (command : MainCommand)

/-- `none` when the action is not possible in the state, so also while a mutex is locked. -/
def State.step (s : State) : Action → Except Db.Fault (Option State)
  | .connect => return some s.connect
  | .client c input => s.runClient c input
  | .cancel c => return s.actOnCancel c
  | .sigint => return if s.main = .commands then s.deleteAll else none
  | .main command => return s.runMain command

/-- The states of the runs in which every step satisfies `ok`. -/
abbrev Reachable (ok : State → Action → Prop) : State → Prop := Transition.Reachable State.step State.initial ok

/-- No thread has terminated with a lock, and every thread that was counted and has terminated has
been uncounted and has signalled it. -/
def Released (s : State) : Prop :=
  ∀ c thread, s.threads c = some thread → thread.pc = .terminated →
    (∀ m, s.owner m ≠ some c) ∧ (∀ n mode, (c, mode) ∉ s.db.holders n) ∧
    (thread.incremented = true → thread.decremented = true ∧ thread.signalled = true)

/-- In `search`, which locks a child with its parent still locked. -/
def onChild : Option Db.Activity → Bool
  | some ⟨_, _, .wait _ _⟩ => true
  | _ => false

/-- No cancellation is acted on in `comm_shutdown`, called by `client_destructor`, nor in the lock
operation of `search`. -/
def Careful (s : State) : Action → Prop
  | .cancel c => (∀ thread ∈ s.threads c, thread.pc ≠ .closing ∧ thread.pc ≠ .reporting) ∧ onChild (s.db.threads c) = false
  | _ => True

instance (s : State) : ∀ action, Decidable (Careful s action)
  | .cancel _ => inferInstanceAs (Decidable (_ ∧ _))
  | .connect | .client _ _ | .sigint | .main _ => isTrue trivial

/-! ### The invariant -/

variable {s s' : State} {c d : ClientId} {thread thread' : Thread} {m : Mutex} {pc : Pc} {db : Db.System} {input : Input}

/-- What a thread has done to the count by the time it stands where it does. -/
def Thread.Settled (thread : Thread) : Prop :=
  match thread.pc with
  | .start | .admitted | .counting => thread.incremented = false
  | .closing | .reporting | .signalling => thread.decremented = true
  | .unlocking => thread.decremented = true ∧ thread.signalled = true
  | .terminated => thread.incremented = true → thread.decremented = true ∧ thread.signalled = true
  | _ => True

structure Guarded (s : State) : Prop where
  owned : ∀ m c, s.owner m = some c ↔ ∃ thread, s.threads c = some thread ∧ thread.pc.holds = some m
  covered : Db.Covered s.db
  calling : ∀ c act, s.db.threads c = some act → ∃ thread files, s.threads c = some thread ∧ thread.pc = .inCall files
  settled : ∀ c thread, s.threads c = some thread → thread.Settled
  fresh : ∀ c, s.created ≤ c → s.threads c = none

theorem guarded_initial : Guarded .initial := by
  constructor
  · simp [State.initial]
  · intro n t mode held
    cases held
  · intro c act running
    cases running
  · intro c thread found
    cases found
  · intro c _
    rfl

theorem Guarded.released (guarded : Guarded s) : Released s := by
  intro c thread found ended
  refine ⟨?_, ?_, ?_⟩
  · intro m owns
    obtain ⟨thread', again, holds⟩ := (guarded.owned m c).mp owns
    obtain rfl := Option.some.inj (found.symm.trans again)
    rw [ended] at holds
    cases holds
  · intro n mode held
    obtain ⟨act, running, _⟩ := guarded.covered n c mode held
    obtain ⟨thread', files, again, inside⟩ := guarded.calling c act running
    obtain rfl := Option.some.inj (found.symm.trans again)
    rw [ended] at inside
    cases inside
  · have settled := guarded.settled c thread found
    unfold Thread.Settled at settled
    rw [ended] at settled
    exact settled

/-- A step of thread `c`: it leaves the other threads and their locks as they are. -/
theorem Guarded.turn (guarded : Guarded s) (found : s.threads c = some thread)
    (threads : s'.threads = Function.update s.threads c (some thread')) (created : s'.created = s.created)
    (covered : Db.Covered s'.db) (calls : ∀ d, d ≠ c → s'.db.threads d = s.db.threads d)
    (inside : ∀ act, s'.db.threads c = some act → ∃ files, thread'.pc = .inCall files)
    (foreign : ∀ m d, d ≠ c → (s'.owner m = some d ↔ s.owner m = some d))
    (own : ∀ m, s'.owner m = some c ↔ thread'.pc.holds = some m) (settled : thread'.Settled) : Guarded s' := by
  have here : s'.threads c = some thread' := by rw [threads, Function.update_self]
  have there : ∀ d, d ≠ c → s'.threads d = s.threads d := by
    intro d different
    rw [threads, Function.update_of_ne different]
  constructor
  · intro m d
    by_cases same : d = c
    · subst same
      rw [own m]
      simp [here]
    · rw [foreign m d same, there d same]
      exact guarded.owned m d
  · exact covered
  · intro d act running
    by_cases same : d = c
    · subst same
      obtain ⟨files, isInside⟩ := inside act running
      exact ⟨thread', files, here, isInside⟩
    · rw [calls d same] at running
      rw [there d same]
      exact guarded.calling d act running
  · intro d other isOther
    by_cases same : d = c
    · subst same
      obtain rfl := Option.some.inj (here.symm.trans isOther)
      exact settled
    · rw [there d same] at isOther
      exact guarded.settled d other isOther
  · intro d late
    have different : d ≠ c := by
      rintro rfl
      rw [guarded.fresh d (by rw [← created]; exact late)] at found
      cases found
    rw [there d different]
    exact guarded.fresh d (by rw [← created]; exact late)

/-! ### Steps that leave the database alone -/

theorem Guarded.own (guarded : Guarded s) (found : s.threads c = some thread) :
    s.owner m = some c ↔ thread.pc.holds = some m := by
  rw [guarded.owned m c]
  simp [found]

theorem Guarded.outside (guarded : Guarded s) (found : s.threads c = some thread) (out : ∀ files, thread.pc ≠ .inCall files) :
    s.db.threads c = none := by
  cases running : s.db.threads c with
  | none => rfl
  | some act =>
    obtain ⟨thread', files, again, inside⟩ := guarded.calling c act running
    obtain rfl := Option.some.inj (found.symm.trans again)
    exact (out files inside).elim

theorem Guarded.goto (guarded : Guarded s) (found : s.threads c = some thread) (out : ∀ files, thread.pc ≠ .inCall files)
    (threads : s'.threads = Function.update s.threads c (some thread')) (created : s'.created = s.created)
    (owner : s'.owner = s.owner) (same : s'.db = s.db) (holds : thread'.pc.holds = thread.pc.holds)
    (settled : thread'.Settled) : Guarded s' := by
  refine guarded.turn found threads created ?_ ?_ ?_ ?_ ?_ settled
  · rw [same]
    exact guarded.covered
  · intro d _
    rw [same]
  · intro act running
    rw [same, guarded.outside found out] at running
    cases running
  · intro m d _
    rw [owner]
  · intro m
    rw [owner, holds]
    exact guarded.own found

theorem Guarded.lock (guarded : Guarded s) (found : s.threads c = some thread) (out : ∀ files, thread.pc ≠ .inCall files)
    (run : s.lock c thread m pc = some s') (before : thread.pc.holds = none) (after : pc.holds = some m)
    (settled : { thread with pc := pc }.Settled) : Guarded s' := by
  unfold State.lock at run
  by_cases free : s.owner m = none
  · rw [if_pos free] at run
    obtain rfl := Option.some.inj run
    refine guarded.turn found rfl rfl guarded.covered (fun _ _ => rfl) ?_ ?_ ?_ settled
    · intro act running
      cases (guarded.outside found out).symm.trans running
    · intro m' d different
      by_cases same : m' = m
      · subst same
        simp [State.goto, free, Ne.symm different]
      · simp [State.goto, same]
    · intro m'
      by_cases same : m' = m
      · subst same
        simp [State.goto, after]
      · have others := guarded.own (m := m') found
        rw [before] at others
        simp [State.goto, same, Ne.symm same, others, after]
  · rw [if_neg free] at run
    cases run

/-- The thread may have changed the count under the mutex. -/
theorem Guarded.unlock (guarded : Guarded s) (found : s.threads c = some thread) (out : ∀ files, thread.pc ≠ .inCall files)
    (threads : s'.threads = Function.update s.threads c (some thread')) (created : s'.created = s.created)
    (owner : s'.owner = Function.update s.owner m none) (same : s'.db = s.db) (before : thread.pc.holds = some m)
    (after : thread'.pc.holds = none) (settled : thread'.Settled) : Guarded s' := by
  have owns := (guarded.own found).mpr before
  refine guarded.turn found threads created ?_ ?_ ?_ ?_ ?_ settled
  · rw [same]
    exact guarded.covered
  · intro d _
    rw [same]
  · intro act running
    rw [same, guarded.outside found out] at running
    cases running
  · intro m' d different
    rw [owner]
    by_cases here : m' = m
    · subst here
      simp [owns, Ne.symm different]
    · simp [here]
  · intro m'
    rw [owner, after]
    by_cases here : m' = m
    · subst here
      simp
    · rw [Function.update_of_ne here, guarded.own found, before]
      simp [Ne.symm here]

/-! ### Calls into the database -/

theorem Guarded.database (action : Db.Action) {next : Db.System → Pc} (guarded : Guarded s)
    (found : s.threads action.thread = some thread) (before : thread.pc.holds = none)
    (run : s.database action.thread thread action next = .ok (some s')) (after : ∀ db, (next db).holds = none)
    (inside : ∀ db act, db.threads action.thread = some act → ∃ files, next db = .inCall files)
    (settled : ∀ db, { thread with pc := next db }.Settled) : Guarded s' := by
  unfold State.database at run
  obtain ⟨result, acted, run⟩ := Run.except_bind run
  cases result with
  | none => cases run
  | some db =>
    cases run
    refine guarded.turn found rfl rfl (guarded.covered.step acted) ?_ (inside db) (fun _ _ _ => Iff.rfl) ?_ (settled db)
    · intro d different
      exact Db.System.act_others acted different
    · intro m
      change s.owner m = _ ↔ (next db).holds = _
      rw [after db, ← before]
      exact guarded.own found

theorem returned_holds (files : Nat) : (Pc.returned files).holds = none := by
  cases files <;> rfl

theorem returned_settled (files : Nat) : { thread with pc := .returned files }.Settled := by
  cases files <;> trivial

theorem Guarded.interpret {files : Nat} (guarded : Guarded s) (found : s.threads c = some thread)
    (stands : thread.pc = .interpreting files) (run : s.interpret c thread files input = .ok (some s')) : Guarded s' := by
  have before : thread.pc.holds = none := by rw [stands]; rfl
  have out : ∀ files, thread.pc ≠ .inCall files := by
    intro files
    rw [stands]
    intro same
    cases same
  cases input with
  | command call =>
    exact guarded.database (.invoke c call) found before run (fun _ => rfl) (fun _ _ _ => ⟨files, rfl⟩)
      (fun _ => trivial)
  | file =>
    cases run
    exact guarded.goto found out rfl rfl rfl rfl (by rw [before]; rfl) trivial
  | succeeds =>
    cases run
    exact guarded.goto found out rfl rfl rfl rfl (by rw [before]; exact returned_holds files) (returned_settled files)
  | fails =>
    cases run
    exact guarded.goto found out rfl rfl rfl rfl (by rw [before]; exact returned_holds files) (returned_settled files)

theorem Guarded.runClient (guarded : Guarded s) (run : s.runClient c input = .ok (some s')) : Guarded s' := by
  unfold State.runClient at run
  cases found : s.threads c with
  | none =>
    rw [found] at run
    cases run
  | some thread =>
    rw [found] at run
    obtain ⟨pc, cancelled, exiting, incremented, decremented, signalled⟩ := thread
    have settled := guarded.settled c _ found
    cases pc with
    | start =>
      cases run
      by_cases closed : s.acceptingClients = 0
      · rw [if_pos closed]
        refine guarded.goto found ?_ rfl rfl rfl rfl rfl ?_
        · intro files same
          cases same
        · intro counted
          cases settled.symm.trans counted
      · rw [if_neg closed]
        exact guarded.goto found nofun rfl rfl rfl rfl rfl settled
    | admitted => exact guarded.lock found nofun (Except.ok.inj run) rfl rfl settled
    | counting =>
      cases run
      exact guarded.unlock found nofun rfl rfl rfl rfl rfl rfl trivial
    | counted => exact guarded.lock found nofun (Except.ok.inj run) rfl rfl trivial
    | inserting =>
      cases run
      exact guarded.unlock found nofun rfl rfl rfl rfl rfl rfl trivial
    | replying =>
      cases run
      split
      · exact guarded.goto found nofun rfl rfl rfl rfl rfl trivial
      · exact guarded.goto found nofun rfl rfl rfl rfl rfl trivial
    | reading =>
      cases run
      split
      · exact guarded.goto found nofun rfl rfl rfl rfl rfl trivial
      · exact guarded.goto found nofun rfl rfl rfl rfl rfl trivial
    | ready => exact guarded.lock found nofun (Except.ok.inj run) rfl rfl trivial
    | testing =>
      cases run
      split
      · exact guarded.unlock found nofun rfl rfl rfl rfl rfl rfl trivial
      · exact guarded.goto found nofun rfl rfl rfl rfl rfl trivial
    | blocked => exact guarded.lock found nofun (Except.ok.inj run) rfl rfl trivial
    | passing =>
      cases run
      exact guarded.unlock found nofun rfl rfl rfl rfl rfl rfl trivial
    | interpreting files => exact guarded.interpret found rfl run
    | scanning files =>
      cases run
      split
      · exact guarded.goto found nofun rfl rfl rfl rfl (returned_holds files) (returned_settled files)
      · exact guarded.goto found nofun rfl rfl rfl rfl rfl trivial
    | inCall files =>
      apply guarded.database (.advance c) found rfl run
      · intro db
        split
        · exact returned_holds files
        · rfl
      · intro db act running
        change db.threads c = some act at running
        rw [running]
        exact ⟨files, rfl⟩
      · intro db
        split
        · exact returned_settled files
        · trivial
    | unblocking => exact guarded.lock found nofun (Except.ok.inj run) rfl rfl trivial
    | releasing =>
      cases run
      exact guarded.unlock found nofun rfl rfl rfl rfl rfl rfl trivial
    | leaving => exact guarded.lock found nofun (Except.ok.inj run) rfl rfl trivial
    | unlinking =>
      cases run
      exact guarded.unlock found nofun rfl rfl rfl rfl rfl rfl trivial
    | unlinked => exact guarded.lock found nofun (Except.ok.inj run) rfl rfl trivial
    | uncounting =>
      cases run
      exact guarded.goto found nofun rfl rfl rfl rfl rfl rfl
    | closing =>
      cases run
      split
      · exact guarded.goto found nofun rfl rfl rfl rfl rfl settled
      · exact guarded.goto found nofun rfl rfl rfl rfl rfl settled
    | reporting =>
      cases run
      exact guarded.goto found nofun rfl rfl rfl rfl rfl settled
    | signalling =>
      cases run
      exact guarded.goto found nofun rfl rfl rfl rfl rfl ⟨settled, rfl⟩
    | unlocking =>
      cases run
      exact guarded.unlock found nofun rfl rfl rfl rfl rfl rfl fun _ => settled
    | terminated => cases run

/-! ### Cancellation -/

theorem Guarded.actOnCancel (guarded : Guarded s) (careful : Careful s (.cancel c)) (run : s.actOnCancel c = some s') :
    Guarded s' := by
  obtain ⟨outside, notOnChild⟩ := careful
  unfold State.actOnCancel at run
  cases found : s.threads c with
  | none =>
    rw [found] at run
    cases run
  | some thread =>
    rw [found] at run
    obtain ⟨notClosing, notReporting⟩ := outside thread found
    by_cases requested : thread.cancelled = true ∧ thread.exiting = false
    · simp only [if_pos requested] at run
      obtain ⟨pc, cancelled, exiting, incremented, decremented, signalled⟩ := thread
      cases pc with
      | replying | reading | interpreting _ | scanning _ | blocked =>
        cases run
        exact guarded.goto found nofun rfl rfl rfl rfl rfl trivial
      | closing => exact (notClosing rfl).elim
      | reporting => exact (notReporting rfl).elim
      | inCall files =>
        by_cases locking : State.inRwlock (s.db.threads c) = true
        · simp only [if_pos locking] at run
          cases run
          -- The thread is at the lock operation on `head`, and has no lock yet.
          have bare : ∀ act, s.db.threads c = some act → act.pc.held = [] := by
            intro act running
            rw [running] at locking notOnChild
            obtain ⟨call, start, pc⟩ := act
            cases pc with
            | start => rfl
            | wait => cases notOnChild
            | _ => cases locking
          refine guarded.turn found rfl rfl (guarded.covered.idle bare rfl rfl) ?_ ?_ (fun _ _ _ => Iff.rfl) ?_ trivial
          · intro d different
            exact Function.update_of_ne different _ _
          · intro act running
            have left : Function.update s.db.threads c none c = some act := running
            rw [Function.update_self] at left
            cases left
          · intro m
            have own := guarded.own (m := m) found
            exact own
        · simp only [if_neg locking] at run
          cases run
      | _ => cases run
    · simp only [if_neg requested] at run
      cases run

/-! ### The other threads -/

theorem Guarded.stays (guarded : Guarded s) (mark : Thread → Thread) (pcs : ∀ thread, (mark thread).pc = thread.pc)
    (settles : ∀ thread, thread.Settled → (mark thread).Settled) (threads : ∀ c, s'.threads c = (s.threads c).map mark)
    (created : s'.created = s.created) (owner : s'.owner = s.owner) (same : s'.db = s.db) : Guarded s' := by
  constructor
  · intro m c
    rw [owner, threads c, guarded.owned m c]
    simp [pcs]
  · rw [same]
    exact guarded.covered
  · intro c act running
    rw [same] at running
    obtain ⟨thread, files, found, inside⟩ := guarded.calling c act running
    exact ⟨mark thread, files, by rw [threads, found]; rfl, by rw [pcs, inside]⟩
  · intro c thread' found
    rw [threads] at found
    obtain ⟨thread, was, rfl⟩ := Option.map_eq_some_iff.mp found
    exact settles thread (guarded.settled c thread was)
  · intro c late
    rw [created] at late
    rw [threads, guarded.fresh c late]
    rfl

theorem Guarded.unmoved (guarded : Guarded s) (threads : s'.threads = s.threads) (created : s'.created = s.created)
    (owner : s'.owner = s.owner) (same : s'.db = s.db) : Guarded s' :=
  guarded.stays id (fun _ => rfl) (fun _ settled => settled) (fun c => by rw [threads, Option.map_id, id]) created owner
    same

theorem Guarded.deleteAll (guarded : Guarded s) (run : s.deleteAll = some s') : Guarded s' := by
  unfold State.deleteAll at run
  by_cases free : s.owner .list = none
  · rw [if_pos free] at run
    cases run
    refine guarded.stays (fun thread => if thread.pc.listed then State.pthreadCancel thread else thread) ?_ ?_ (fun _ => rfl) rfl rfl rfl
    · intro thread
      by_cases listed : thread.pc.listed = true
      · rw [if_pos listed]
        rfl
      · rw [if_neg listed]
    · intro thread settled
      by_cases listed : thread.pc.listed = true
      · rw [if_pos listed]
        exact settled
      · rw [if_neg listed]
        exact settled
  · rw [if_neg free] at run
    cases run

theorem Guarded.setStopped {stopped : Bool} (guarded : Guarded s) (run : s.setStopped stopped = some s') : Guarded s' := by
  unfold State.setStopped at run
  by_cases free : s.owner .go = none
  · rw [if_pos free] at run
    cases run
    exact guarded.unmoved rfl rfl rfl rfl
  · rw [if_neg free] at run
    cases run

theorem Guarded.runMain {command : MainCommand} (guarded : Guarded s) (run : s.runMain command = some s') : Guarded s' := by
  unfold State.runMain at run
  cases stands : s.main with
  | commands =>
    rw [stands] at run
    cases command with
    | stop => exact guarded.setStopped run
    | go => exact guarded.setStopped run
    | print =>
      cases run
      exact guarded
    | eof =>
      cases run
      exact guarded.unmoved rfl rfl rfl rfl
  | closing =>
    rw [stands] at run
    cases run
    exact guarded.unmoved rfl rfl rfl rfl
  | refusing =>
    rw [stands] at run
    obtain ⟨next, marked, rfl⟩ := Option.map_eq_some_iff.mp run
    exact (guarded.deleteAll marked).unmoved rfl rfl rfl rfl
  | waiting =>
    rw [stands] at run
    simp only at run
    split at run
    · cases run
      exact guarded.unmoved rfl rfl rfl rfl
    · cases run
  | cleaning =>
    rw [stands] at run
    cases run
  | cleaned =>
    rw [stands] at run
    cases run

theorem Guarded.connect (guarded : Guarded s) : Guarded s.connect := by
  have unused := guarded.fresh s.created (Nat.le_refl _)
  have here : s.connect.threads s.created = some ⟨.start, false, false, false, false, false⟩ := Function.update_self _ _ _
  have there : ∀ c, c ≠ s.created → s.connect.threads c = s.threads c := fun c different => Function.update_of_ne different _ _
  constructor
  · intro m c
    by_cases new : c = s.created
    · subst new
      have owned := guarded.owned m s.created
      simp only [unused] at owned
      simp [Pc.holds, State.connect, owned]
    · rw [there c new]
      exact guarded.owned m c
  · exact guarded.covered
  · intro c act running
    obtain ⟨thread, files, found, inside⟩ := guarded.calling c act running
    have new : c ≠ s.created := by
      rintro rfl
      rw [unused] at found
      cases found
    exact ⟨thread, files, (there c new).trans found, inside⟩
  · intro c thread found
    by_cases new : c = s.created
    · subst new
      obtain rfl := Option.some.inj (here.symm.trans found)
      rfl
    · rw [there c new] at found
      exact guarded.settled c thread found
  · intro c late
    change s.created + 1 ≤ c at late
    rw [there c (by omega)]
    exact guarded.fresh c (by omega)

theorem Guarded.step {action : Action} (guarded : Guarded s) (careful : Careful s action)
    (run : s.step action = .ok (some s')) : Guarded s' := by
  cases action with
  | connect =>
    cases run
    exact guarded.connect
  | client c input => exact guarded.runClient run
  | cancel c => exact guarded.actOnCancel careful (Except.ok.inj run)
  | sigint =>
    have run := Except.ok.inj run
    by_cases running : s.main = .commands
    · rw [if_pos running] at run
      exact guarded.deleteAll run
    · rw [if_neg running] at run
      cases run
  | main command => exact guarded.runMain (Except.ok.inj run)

/-- In every run whose cancellations are careful no lock is stranded. -/
theorem careful_released (reachable : Reachable Careful s) : Released s := by
  have guarded : Guarded s := by
    apply reachable.invariant guarded_initial
    intro s s' action guarded careful run
    exact guarded.step careful run
  exact guarded.released

/-- A client waits for the server to go on when SIGINT arrives. -/
def stoppedVisit : List Action :=
  [Action.connect] ++ List.replicate 5 (Action.client 0 .succeeds) ++ [Action.main .stop] ++
    List.replicate 4 (Action.client 0 .succeeds) ++ [Action.sigint, .cancel 0] ++
    List.replicate 9 (Action.client 0 .succeeds)

theorem released_stoppedVisit : ∃ s, Transition.follow State.step Careful stoppedVisit .initial = some s ∧
    s.threads 0 = some ⟨.terminated, true, true, true, true, true⟩ ∧ Released s := by
  have run : (Transition.follow State.step Careful stoppedVisit .initial).map (fun s => s.threads 0) =
      some (some ⟨.terminated, true, true, true, true, true⟩) := by decide +kernel
  obtain ⟨s, found, ended⟩ := Option.map_eq_some_iff.mp run
  exact ⟨s, found, ended, careful_released (Transition.follow_reachable .initial found)⟩

/-- A client disconnects after SIGINT, and the cancellation is acted on in `fclose`. -/
def closedVisit : List Action :=
  [Action.connect] ++ List.replicate 5 (Action.client 0 .succeeds) ++ [Action.sigint, .client 0 .fails] ++
    List.replicate 4 (Action.client 0 .succeeds) ++ [Action.cancel 0]

/-- A client that has added a node is cancelled when it asks for the lock of that node. -/
def searchingVisit : List Action :=
  [Action.connect] ++ List.replicate 10 (Action.client 0 .succeeds) ++
    [Action.client 0 (.command (.add (text "b") (text "1")))] ++ List.replicate 9 (Action.client 0 .succeeds) ++
    [Action.client 0 (.command (.query (text "b")))] ++ List.replicate 2 (Action.client 0 .succeeds) ++
    [Action.sigint, .cancel 0] ++ List.replicate 7 (Action.client 0 .succeeds)

theorem lock_stranded : (∃ s, Reachable (fun _ _ => True) s ∧
      s.threads 0 = some ⟨.terminated, true, true, true, true, false⟩ ∧ s.owner .server = some 0 ∧ ¬ Released s) ∧
    ∃ s, Reachable (fun _ _ => True) s ∧
      s.threads 0 = some ⟨.terminated, true, true, true, true, true⟩ ∧ s.db.holders Db.head = [(0, .write)] ∧ ¬ Released s := by
  constructor
  · have run : (Transition.follow State.step (fun _ _ => True) closedVisit .initial).map
        (fun s => (s.threads 0, s.owner .server)) =
        some (some ⟨.terminated, true, true, true, true, false⟩, some 0) := by decide +kernel
    obtain ⟨s, found, view⟩ := Option.map_eq_some_iff.mp run
    obtain ⟨ended, stranded⟩ := Prod.mk.inj view
    refine ⟨s, Transition.follow_reachable .initial found, ended, stranded, ?_⟩
    intro released
    exact (released 0 _ ended rfl).1 .server stranded
  · have run : (Transition.follow State.step (fun _ _ => True) searchingVisit .initial).map
        (fun s => (s.threads 0, s.db.holders Db.head)) =
        some (some ⟨.terminated, true, true, true, true, true⟩, [(0, .write)]) := by decide +kernel
    obtain ⟨s, found, view⟩ := Option.map_eq_some_iff.mp run
    obtain ⟨ended, stranded⟩ := Prod.mk.inj view
    refine ⟨s, Transition.follow_reachable .initial found, ended, stranded, ?_⟩
    intro released
    apply (released 0 _ ended rfl).2.1 Db.head .write
    rw [stranded]
    exact List.mem_singleton_self _

end Cs1330.Server.Locks
