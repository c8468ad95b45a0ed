import Mathlib.Logic.Function.Basic
import Cs1330.Lib.Transition

/-!
# The threads of the server

`server.c` as the steps of the listener, the client threads, the signal handler and `main`. Each
section under a mutex and each access to `accepting_clients` is one step; a cancellation that was
requested takes effect at the calls that are cancellation points. The client records are a heap,
so that the use of a destroyed client is a fault.
-/

namespace Cs1330.Server

abbrev ClientId := Nat

/-- The list fields of a `client_t`. -/
structure Client where
  prev : Option ClientId
  next : Option ClientId
  deriving DecidableEq, Repr

inductive Fault where
  /-- A client was used after `client_destructor`. -/
  | destroyed (client : ClientId)
  /-- A walk along the list went on for more steps than there are clients. -/
  | endlessWalk
  deriving DecidableEq, Repr

/-- Where a client thread stands in `run_client` and `thread_cleanup`. -/
inductive Pc where
  /-- before the test of `accepting_clients` -/
  | start
  /-- before the section that counts the thread -/
  | admitted
  /-- before the section that puts the client into the list -/
  | counted
  /-- in `comm_serve` -/
  | serving
  /-- before `client_control_wait` -/
  | ready
  /-- in `pthread_cond_wait` -/
  | blocked
  /-- before `interpret_command` -/
  | calling
  /-- in `interpret_command` -/
  | interpreting
  /-- before the section that takes the client out of the list -/
  | leaving
  /-- before the section that uncounts the thread and destroys the client -/
  | unlinked
  | terminated
  deriving DecidableEq, Repr

structure Thread where
  pc : Pc
  /-- `pthread_cancel` was called for the thread -/
  cancelled : Bool
  deriving DecidableEq, Repr

inductive MainPc where
  /-- in the loop over command lines -/
  | commands
  /-- before `accepting_clients = 0` -/
  | closing
  /-- before `delete_all` -/
  | refusing
  /-- in the loop on `num_client_threads` -/
  | waiting
  /-- before `db_cleanup` -/
  | cleaning
  | cleaned
  deriving DecidableEq, Repr

inductive MainCommand where
  | stop | go | print | eof
  deriving DecidableEq, Repr

inductive Event where
  /-- a client found `stopped` cleared in `client_control_wait` -/
  | test (client : ClientId)
  | interpret (client : ClientId)
  | stop
  | release
  /-- `db_cleanup` starts -/
  | cleanup
  deriving DecidableEq, Repr

/-- The calls at which a cancellation may take effect; `interpret_command` locks nodes and reads
files. -/
def Pc.cancellationPoint : Pc → Bool
  | .serving | .blocked | .interpreting => true
  | _ => false

structure State where
  clients : ClientId → Option Client
  created : Nat
  threadListHead : Option ClientId
  numClientThreads : Int
  acceptingClients : Int
  stopped : Bool
  threads : ClientId → Option Thread
  /-- the client that the listener has not detached yet -/
  listener : Option ClientId
  main : MainPc
  log : List Event

def State.initial : State :=
  ⟨fun _ => none, 0, none, 0, 1, false, fun _ => none, none, .commands, []⟩

namespace State

/-! ### The client list -/

def getClient (s : State) (c : ClientId) : Except Fault Client :=
  match s.clients c with
  | some client => .ok client
  | none => .error (.destroyed c)

def setClient (s : State) (c : ClientId) (change : Client → Client) : Except Fault State := do
  let client ← s.getClient c
  return { s with clients := Function.update s.clients c (some (change client)) }

/-- The section of `run_client` under `thread_list_mutex`. -/
def insertClient (s : State) (c : ClientId) : Except Fault State := do
  let head := s.threadListHead
  let s ← s.setClient c fun client => { client with next := head }
  match head with
  | some first =>
    let s ← s.setClient first fun client => { client with prev := some c }
    return { s with threadListHead := some c }
  | none => return { s with threadListHead := some c }

/-- `client->prev->next = client->next`, or the head of the list moves on. -/
def unlinkPrev (s : State) (c : ClientId) : Except Fault State := do
  let client ← s.getClient c
  match client.prev with
  | some prev => s.setClient prev fun other => { other with next := client.next }
  | none => return { s with threadListHead := client.next }

/-- The section of `thread_cleanup` under `thread_list_mutex`. -/
def unlinkClient (s : State) (c : ClientId) : Except Fault State := do
  let client ← s.getClient c
  match client.next with
  | some next =>
    let s ← s.setClient next fun other => { other with prev := client.prev }
    s.unlinkPrev c
  | none => s.unlinkPrev c

def clientDestructor (s : State) (c : ClientId) : Except Fault State := do
  let _ ← s.getClient c
  return { s with clients := Function.update s.clients c none }

def pthreadCancel (s : State) (c : ClientId) : State :=
  { s with threads := Function.update s.threads c ((s.threads c).map fun thread => { thread with cancelled := true }) }

def cancelFrom : Nat → Option ClientId → State → Except Fault State
  | _, none, s => .ok s
  | 0, some _, _ => .error .endlessWalk
  | rounds + 1, some c, s => do
    let client ← s.getClient c
    cancelFrom rounds client.next (s.pthreadCancel c)

def deleteAll (s : State) : Except Fault State := cancelFrom s.created s.threadListHead s

/-! ### Steps -/

def goto (s : State) (c : ClientId) (thread : Thread) (pc : Pc) : State :=
  { s with threads := Function.update s.threads c (some { thread with pc := pc }) }

def note (s : State) (event : Event) : State := { s with log := s.log ++ [event] }

/-- `client_constructor` up to `pthread_create`. -/
def clientConstructor (s : State) : State :=
  { s with
    clients := Function.update s.clients s.created (some ⟨none, none⟩)
    threads := Function.update s.threads s.created (some ⟨.start, false⟩)
    listener := some s.created
    created := s.created + 1 }

/-- The test in the loop of `client_control_wait`. -/
def clientControlWait (s : State) (c : ClientId) (thread : Thread) : State :=
  if s.stopped then s.goto c thread .blocked else (s.note (.test c)).goto c thread .calling

/-- A step of `run_client`; `served` is whether `comm_serve` gets a command. -/
def runClient (s : State) (c : ClientId) (served : Bool) : Except Fault (Option State) := do
  match s.threads c with
  | none => return none
  | some thread =>
    match thread.pc with
    | .start => return some (s.goto c thread (if s.acceptingClients = 0 then .terminated else .admitted))
    | .admitted => return some ({ s with numClientThreads := s.numClientThreads + 1 }.goto c thread .counted)
    | .counted => return some ((← s.insertClient c).goto c thread .serving)
    | .serving => return some (s.goto c thread (if served then .ready else .leaving))
    | .ready => return some (s.clientControlWait c thread)
    | .blocked => return some (s.clientControlWait c thread)
    | .calling => return some ((s.note (.interpret c)).goto c thread .interpreting)
    | .interpreting => return some (s.goto c thread .serving)
    | .leaving => return some ((← s.unlinkClient c).goto c thread .unlinked)
    | .unlinked =>
      let s ← { s with numClientThreads := s.numClientThreads - 1 }.clientDestructor c
      return some (s.goto c thread .terminated)
    | .terminated => return none

/-- A requested cancellation takes effect: the cleanup handlers run. -/
def actOnCancel (s : State) (c : ClientId) : Option State := do
  let thread ← s.threads c
  if thread.cancelled ∧ thread.pc.cancellationPoint then some (s.goto c thread .leaving) else none

/-- A step of `main`; `none` while it waits. -/
def runMain (s : State) (command : MainCommand) : Except Fault (Option State) := do
  match s.main with
  | .commands =>
    match command with
    | .stop => return some ({ s with stopped := true }.note .stop)
    | .go => return some ({ s with stopped := false }.note .release)
    | .print => return some s
    | .eof => return some { s with main := .closing }
  | .closing => return some { s with acceptingClients := 0, main := .refusing }
  | .refusing => return some { (← s.deleteAll) with main := .waiting }
  | .waiting => return if s.numClientThreads > 0 then none else some { s with main := .cleaning }
  | .cleaning => return some ({ s with main := .cleaned }.note .cleanup)
  | .cleaned => return none

end State

inductive Action where
  /-- the listener gets a connection -/
  | connect
  /-- the listener detaches the thread of its last client -/
  | detach
  | client (client : ClientId) (served : Bool)
  | cancel (client : ClientId)
  /-- the signal handler gets SIGINT -/
  | sigint
  | main (command : MainCommand)
  deriving DecidableEq, Repr

/-- `none` when the action is not possible in the state. The signal handler is joined before
`accepting_clients` is cleared. -/
def State.step (s : State) : Action → Except Fault (Option State)
  | .connect => return if s.listener = none then some s.clientConstructor else none
  | .detach => do
    match s.listener with
    | none => return none
    | some c =>
      let _ ← s.getClient c
      return some { s with listener := none }
  | .client c served => s.runClient c served
  | .cancel c => return s.actOnCancel c
  | .sigint => do if s.main = .commands then return some (← s.deleteAll) else return none
  | .main command => s.runMain command

/-- The states of the runs in which every step satisfies `ok`. -/
def Reachable (ok : State → Action → Prop) : State → Prop := Transition.Reachable State.step State.initial ok

end Cs1330.Server
