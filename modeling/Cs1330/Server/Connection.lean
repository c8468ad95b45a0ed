import Cs1330.Lib.Transition
import Cs1330.Db.Nesting

/-!
# One connection

A client process that plays a script (`create_occurence` in `client.c`) and the server thread of
its connection (`comm_serve` in `comm.c` in the loop of `run_client`). Each direction of the
connection is the bytes that were sent and not read yet, so that the two sides cut them into lines
with their own buffers. What a call on a stream comes to is fixed by these bytes, except that a
write of the server may fail once the client is gone or while input is unread in the stream, and a
read once data has gone to a client that is gone. A limit on open files is not modelled: `f` opens
whatever file there is.
-/

namespace Cs1330.Connection
open Db

/-- `BUFSIZE` of the client -/
def bufSize : Nat := 1024

/-- `BUFLEN` of the server -/
def bufLen : Nat := 256

/-- The string in a buffer. -/
def cstr (buffer : List UInt8) : CString := buffer.takeWhile (· ≠ 0)

inductive ClientPc where
  /-- before `fgets(qbuf, sizeof(qbuf), infile)` -/
  | sending
  /-- in `fgets(rbuf, BUFSIZE, cxn)` -/
  | awaiting
  /-- `Client terminated cleanly.` -/
  | finished
  /-- `Connection terminated.` -/
  | lost
  deriving DecidableEq, Repr

inductive ServerPc where
  /-- before the output of `comm_serve` -/
  | replying
  /-- in the `fgets` of `comm_serve` -/
  | reading
  | interpreting
  /-- `comm_serve` has returned -1 -/
  | closed
  deriving DecidableEq, Repr

structure State where
  infile : CString
  qbuf : List UInt8
  client : ClientPc
  /-- the lines that the client has printed -/
  printed : List CString
  toServer : CString
  toClient : CString
  server : ServerPc
  response : CString
  command : CString
  store : Store
  /-- the arguments of the calls of `interpret_command` -/
  calls : List CString
  /-- the responses of those that have returned -/
  answers : List CString

namespace State

def initial (infile : CString) (qbuf : List UInt8) (store : Store) : State :=
  ⟨infile, qbuf, .sending, [], [], [], .replying, [], [], store, [], []⟩

/-- `fgets` writes the line and a NUL over the start of the buffer. -/
def fill (buffer line : List UInt8) : List UInt8 := line ++ 0 :: buffer.drop (line.length + 1)

/-- `qbuf[0] = EOF` -/
def markEnd (qbuf : List UInt8) : List UInt8 := qbuf.set 0 255

/-- The other end is closed on the client's side. -/
def Gone (s : State) : Prop := s.client = .finished ∨ s.client = .lost

instance (s : State) : Decidable s.Gone := inferInstanceAs (Decidable (_ ∨ _))

/-- `fgets` on a connection returns with a line, a full buffer or the end of the input. -/
def Available (size : Nat) (bytes : CString) (ended : Prop) : Prop :=
  byte '\n' ∈ bytes ∨ size - 1 ≤ bytes.length ∨ ended

instance (size : Nat) (bytes : CString) (ended : Prop) [Decidable ended] : Decidable (Available size bytes ended) :=
  inferInstanceAs (Decidable (_ ∨ _))

/-- The loop of `create_occurence`. -/
def runClient (s : State) : Option State :=
  match s.client with
  | .sending =>
    if s.infile = [] then
      some { s with
        qbuf := markEnd s.qbuf
        toServer := s.toServer ++ cstr (markEnd s.qbuf)
        client := .finished }
    else
      some { s with
        infile := (fgets bufSize s.infile).2
        qbuf := fill s.qbuf (fgets bufSize s.infile).1
        toServer := s.toServer ++ cstr (fill s.qbuf (fgets bufSize s.infile).1)
        client := .awaiting }
  | .awaiting =>
    if Available bufSize s.toClient (s.server = .closed) then
      if s.toClient = [] then some { s with client := .lost }
      else
        some { s with
          toClient := (fgets bufSize s.toClient).2
          printed := s.printed ++ [cstr (fgets bufSize s.toClient).1]
          client := .sending }
    else none
  | .finished => none
  | .lost => none

/-- The two halves of `comm_serve`; `works` is whether the connection does. -/
def commServe (s : State) (works : Bool) : Option State :=
  match s.server with
  | .replying =>
    if s.response.length > 0 then
      if works then some { s with toClient := s.toClient ++ s.response ++ [byte '\n'], server := .reading }
      else if s.Gone ∨ s.toServer ≠ [] then some { s with server := .closed }
      else none
    else some { s with server := .reading }
  | .reading =>
    if works then
      if Available bufLen s.toServer s.Gone then
        if s.toServer = [] then some { s with server := .closed }
        else
          some { s with
            toServer := (fgets bufLen s.toServer).2
            command := cstr (fgets bufLen s.toServer).1
            calls := s.calls ++ [cstr (fgets bufLen s.toServer).1]
            server := .interpreting }
      else none
    else if s.Gone ∧ s.toClient ≠ [] then some { s with server := .closed }
    else none
  | .interpreting => none
  | .closed => none

/-- `interpret_command` returns, with `f` commands nested less than `depth` deep. -/
def interpret (files : CString → Option CString) (s : State) (depth : Nat) : Except Fault (Option State) :=
  match s.server with
  | .interpreting => do
    let (response, store) ← interpretCommand files maxLen depth s.command s.store
    return some { s with response := response, store := store, answers := s.answers ++ [response], server := .replying }
  | _ => return none

end State

inductive Action where
  | client
  | serve (works : Bool)
  | interpret (depth : Nat)
  deriving DecidableEq, Repr

def State.step (files : CString → Option CString) (s : State) : Action → Except Fault (Option State)
  | .client => return s.runClient
  | .serve works => return s.commServe works
  | .interpret depth => s.interpret files depth

abbrev Reachable (files : CString → Option CString) (initial : State) : State → Prop :=
  Transition.Reachable (State.step files) initial fun _ _ => True

/-! ### In step -/

/-- A line of a script, which one `fgets` of the client reads. -/
def Line (line : CString) : Prop :=
  ∃ body, line = body ++ [byte '\n'] ∧ byte '\n' ∉ body ∧ 0 ∉ body ∧ line.length < bufSize

def IsCommand (line : CString) : Prop :=
  ∃ rest, line = byte 'q' :: rest ∨ line = byte 'a' :: rest ∨ line = byte 'd' :: rest ∨ line = byte 'f' :: rest

/-- The calls are those for the lines of the script, in order, and perhaps one at its end; the lines
printed are the responses of the calls, in order; and when nothing more can happen, every line was
interpreted and answered. -/
structure InStep (files : CString → Option CString) (script : List CString) (s : State) : Prop where
  calls : s.calls <+: script ∨ ∃ last, s.calls = script ++ [last] ∧ ¬IsCommand last
  printed : s.printed <+: s.answers.map (· ++ [byte '\n'])
  complete : (∀ action s', s.step files action ≠ .ok (some s')) → script <+: s.calls ∧ s.printed.length = script.length

/-- Every run is in step, and comes to an end. -/
def StaysInStep (files : CString → Option CString) (qbuf : List UInt8) (store : Store) (script : List CString) : Prop :=
  (∀ s, Reachable files (.initial script.flatten qbuf store) s → InStep files script s) ∧
  ∃ bound, ∀ actions s, Transition.follow (State.step files) (fun _ _ => True) actions (.initial script.flatten qbuf store) = some s →
    actions.length ≤ bound

/-- A database that some commands have left. -/
def Database (files : CString → Option CString) (store : Store) : Prop :=
  ∃ depth commands responses, (∀ command ∈ commands, command.length < bufLen ∧ 0 ∉ command) ∧
    interpretAll files maxLen depth commands Store.empty = .ok (responses, store)

/-- Each line fits the buffer of the server, no file names itself by way of `f` commands, and an empty script
finds a `qbuf` that makes one line. -/
structure Fits (files : CString → Option CString) (qbuf : List UInt8) (script : List CString) : Prop where
  short : ∀ line ∈ script, line.length < bufLen
  nests : ∀ line ∈ script, ∃ depth, Nests files depth line
  marker : script = [] → (fgets bufLen (cstr (State.markEnd qbuf))).2 = []

/-! ### Buffers and lines -/

variable {files : CString → Option CString} {qbuf : List UInt8} {script done rest : List CString} {line : CString}
  {s s' : State} {works : Bool} {depth : Nat}

theorem cstr_noNul (buffer : List UInt8) : 0 ∉ cstr buffer := by
  intro nul
  simpa using List.mem_takeWhile_imp nul

theorem cstr_eq {string : CString} (noNul : 0 ∉ string) : cstr string = string := by
  apply List.takeWhile_eq_self_iff.mpr
  intro c member
  exact decide_eq_true fun nul => noNul (nul ▸ member)

theorem cstr_append_nul {string : CString} (noNul : 0 ∉ string) (after : List UInt8) : cstr (string ++ 0 :: after) = string := by
  unfold cstr
  rw [List.takeWhile_append_of_pos]
  · simp
  · intro c member
    exact decide_eq_true fun nul => noNul (nul ▸ member)

theorem Line.noNul (isLine : Line line) : 0 ∉ line := by
  obtain ⟨body, rfl, _, noNul, _⟩ := isLine
  simp only [List.mem_append, List.mem_singleton, not_or]
  exact ⟨noNul, by decide⟩

theorem Line.nonempty (isLine : Line line) : line ≠ [] := by
  obtain ⟨body, rfl, _⟩ := isLine
  exact List.append_ne_nil_of_right_ne_nil _ (List.cons_ne_nil _ _)

theorem Line.newline (isLine : Line line) : byte '\n' ∈ line := by
  obtain ⟨body, rfl, _⟩ := isLine
  exact List.mem_append_right _ (List.mem_singleton_self _)

theorem Line.fgets {size : Nat} (isLine : Line line) (fits : line.length < size) (after : CString) :
    fgets size (line ++ after) = (line, after) := by
  obtain ⟨body, rfl, plain, _, _⟩ := isLine
  rw [List.length_append, List.length_singleton] at fits
  rw [← List.append_cons]
  exact fgets_line plain fits

/-- What the client sends at the end of its script. -/
def markerAfter (qbuf : List UInt8) (done : List CString) : CString :=
  match done.getLast? with
  | none => cstr (State.markEnd qbuf)
  | some line => 255 :: line.tail

theorem cstr_markEnd_fill (isLine : Line line) (buffer : List UInt8) :
    cstr (State.markEnd (State.fill buffer line)) = 255 :: line.tail := by
  have noNul := isLine.noNul
  have nonempty := isLine.nonempty
  cases line with
  | nil => exact (nonempty rfl).elim
  | cons c tail =>
    have marked : 0 ∉ (255 :: tail : CString) := by
      simp only [List.mem_cons, not_or] at noNul ⊢
      exact ⟨by decide, noNul.2⟩
    exact cstr_append_nul marked _

/-- The end marker of a line that fits is read at once. -/
theorem fgets_marker (isLine : Line line) (short : line.length < bufLen) : (fgets bufLen (255 :: line.tail)).2 = [] := by
  obtain ⟨body, rfl, plain, _, _⟩ := isLine
  cases body with
  | nil => decide
  | cons c body =>
    have markedPlain : byte '\n' ∉ (255 :: body : CString) := by
      simp only [List.mem_cons, not_or] at plain ⊢
      exact ⟨by decide, plain.2⟩
    have fits : (255 :: body : CString).length + 1 < bufLen := by
      simpa using short
    have split : fgets bufLen (255 :: body ++ [byte '\n']) = (255 :: body ++ [byte '\n'], []) := fgets_line markedPlain fits
    exact congrArg Prod.snd split

theorem markerAfter_head (room : qbuf ≠ []) (done : List CString) : ∃ tail, markerAfter qbuf done = 255 :: tail := by
  unfold markerAfter
  cases done.getLast? with
  | some line => exact ⟨_, rfl⟩
  | none =>
    cases qbuf with
    | nil => exact (room rfl).elim
    | cons c tail => exact ⟨_, rfl⟩

/-! ### The phases of a run -/

/-- The client has sent the lines `done`. -/
structure Played (qbuf : List UInt8) (script done rest : List CString) (s : State) : Prop where
  script : script = done ++ rest
  infile : s.infile = rest.flatten
  serving : ∃ t m, Serving s.store t m
  marker : cstr (State.markEnd s.qbuf) = markerAfter qbuf done

/-- Before the first line there is no response to send. -/
def Idle (s : State) : Prop := s.server = .reading ∨ s.server = .replying ∧ s.response = []

/-- Every response but the last, which is still under way, was printed. -/
def Behind (s : State) (count : Nat) : Prop :=
  ∃ before, s.answers = before ++ [s.response] ∧ s.printed = before.map (· ++ [byte '\n']) ∧ before.length + 1 = count

structure Quiet (qbuf : List UInt8) (script done rest : List CString) (s : State) : Prop
    extends Played qbuf script done rest s where
  client : s.client = .sending
  toServer : s.toServer = []
  toClient : s.toClient = []
  idle : Idle s
  calls : s.calls = done
  printed : s.printed = s.answers.map (· ++ [byte '\n'])
  answers : s.answers.length = done.length

structure Sent (qbuf : List UInt8) (script done : List CString) (line : CString) (rest : List CString) (s : State) : Prop
    extends Played qbuf script (done ++ [line]) rest s where
  client : s.client = .awaiting
  toServer : s.toServer = line
  toClient : s.toClient = []
  idle : Idle s
  calls : s.calls = done
  printed : s.printed = s.answers.map (· ++ [byte '\n'])
  answers : s.answers.length = done.length

structure Working (qbuf : List UInt8) (script done : List CString) (line : CString) (rest : List CString) (s : State) : Prop
    extends Played qbuf script (done ++ [line]) rest s where
  client : s.client = .awaiting
  toServer : s.toServer = []
  toClient : s.toClient = []
  server : s.server = .interpreting
  command : s.command = line
  calls : s.calls = done ++ [line]
  printed : s.printed = s.answers.map (· ++ [byte '\n'])
  answers : s.answers.length = done.length

structure Answered (qbuf : List UInt8) (script done rest : List CString) (s : State) : Prop
    extends Played qbuf script done rest s where
  client : s.client = .awaiting
  toServer : s.toServer = []
  toClient : s.toClient = []
  server : s.server = .replying
  reply : Reply s.response
  calls : s.calls = done
  behind : Behind s done.length

structure Replied (qbuf : List UInt8) (script done rest : List CString) (s : State) : Prop
    extends Played qbuf script done rest s where
  client : s.client = .awaiting
  toServer : s.toServer = []
  toClient : s.toClient = s.response ++ [byte '\n']
  server : s.server = .reading
  reply : Reply s.response
  calls : s.calls = done
  behind : Behind s done.length

/-- The end marker is sent. -/
structure Leaving (qbuf : List UInt8) (script : List CString) (s : State) : Prop where
  client : s.client = .finished
  toServer : s.toServer = markerAfter qbuf script
  toClient : s.toClient = []
  idle : Idle s
  calls : s.calls = script
  printed : s.printed = s.answers.map (· ++ [byte '\n'])
  answers : s.answers.length = script.length
  serving : ∃ t m, Serving s.store t m

/-- The end marker is read. -/
structure Ended (script : List CString) (s : State) : Prop where
  client : s.client = .finished
  toServer : s.toServer = []
  calls : ∃ last, s.calls = script ++ [last] ∧ ¬IsCommand last
  printed : s.printed <+: s.answers.map (· ++ [byte '\n'])
  count : s.printed.length = script.length

/-! ### Waiting -/

theorem runClient_waits (client : s.client = .awaiting) (toClient : s.toClient = []) (server : s.server ≠ .closed) :
    s.runClient = none := by
  have blocked : ¬State.Available bufSize s.toClient (s.server = .closed) := by
    simp [State.Available, toClient, server, bufSize]
  simp only [State.runClient, client, if_neg blocked]

theorem commServe_waits (server : s.server = .reading) (toServer : s.toServer = []) (present : ¬s.Gone) :
    s.commServe works = none := by
  have blocked : ¬State.Available bufLen s.toServer s.Gone := by
    simp [State.Available, toServer, present, bufLen]
  have noReset : ¬(s.Gone ∧ s.toClient ≠ []) := fun both => present both.1
  simp only [State.commServe, server, if_neg blocked, if_neg noReset, ite_self]

theorem interpret_elsewhere (server : s.server ≠ .interpreting) : s.interpret files depth = .ok none := by
  unfold State.interpret
  cases stands : s.server with
  | interpreting => exact (server stands).elim
  | _ => rfl

theorem Idle.elsewhere (idle : Idle s) : s.server ≠ .interpreting ∧ s.server ≠ .closed := by
  rcases idle with server | ⟨server, _⟩
  · rw [server]
    decide
  · rw [server]
    decide

theorem commServe_wakes (works : Bool) (server : s.server = .replying) (response : s.response = []) :
    s.commServe works = some { s with server := .reading } := by
  simp [State.commServe, server, response]

theorem present_of_sending (client : s.client = .sending) : ¬s.Gone := by
  simp [State.Gone, client]

theorem present_of_awaiting (client : s.client = .awaiting) : ¬s.Gone := by
  simp [State.Gone, client]

/-! ### Steps from each phase -/

theorem Quiet.send (quiet : Quiet qbuf script done (line :: rest) s) (isLine : Line line) :
    ∃ s', s.runClient = some s' ∧ Sent qbuf script done line rest s' := by
  have more : s.infile ≠ [] := by
    rw [quiet.infile, List.flatten_cons]
    exact List.append_ne_nil_of_left_ne_nil isLine.nonempty _
  obtain ⟨_, _, _, _, fits⟩ := id isLine
  have split : fgets bufSize s.infile = (line, rest.flatten) := by
    rw [quiet.infile, List.flatten_cons]
    exact isLine.fgets fits _
  have string : cstr (State.fill s.qbuf line) = line := cstr_append_nul isLine.noNul _
  refine ⟨_, by simp only [State.runClient, quiet.client, if_neg more, split, string]; rfl, ?_⟩
  refine ⟨⟨?_, rfl, quiet.serving, ?_⟩, rfl, ?_, quiet.toClient, quiet.idle, quiet.calls, quiet.printed, quiet.answers⟩
  · rw [quiet.script, List.append_cons]
  · rw [markerAfter, List.getLast?_concat]
    exact cstr_markEnd_fill isLine _
  · change s.toServer ++ line = line
    rw [quiet.toServer, List.nil_append]

theorem Quiet.finish (quiet : Quiet qbuf script done [] s) :
    ∃ s', s.runClient = some s' ∧ Leaving qbuf script s' := by
  have whole : script = done := by rw [quiet.script, List.append_nil]
  have ended : s.infile = [] := quiet.infile
  refine ⟨_, by simp only [State.runClient, quiet.client, if_pos ended]; rfl, ?_⟩
  refine ⟨rfl, ?_, quiet.toClient, quiet.idle, ?_, quiet.printed, ?_, quiet.serving⟩
  · change s.toServer ++ cstr (State.markEnd s.qbuf) = _
    rw [quiet.toServer, List.nil_append, quiet.marker, whole]
  · rw [whole]
    exact quiet.calls
  · rw [whole]
    exact quiet.answers

theorem Quiet.serve (quiet : Quiet qbuf script done rest s) (works : Bool) :
    s.commServe works = none ∨ ∃ s', s.commServe works = some s' ∧ Quiet qbuf script done rest s' := by
  rcases quiet.idle with server | ⟨server, response⟩
  · exact .inl (commServe_waits server quiet.toServer (present_of_sending quiet.client))
  · refine .inr ⟨_, commServe_wakes _ server response, ?_⟩
    exact ⟨⟨quiet.script, quiet.infile, quiet.serving, quiet.marker⟩, quiet.client, quiet.toServer, quiet.toClient, .inl rfl,
      quiet.calls, quiet.printed, quiet.answers⟩

theorem Sent.read (sent : Sent qbuf script done line rest s) (isLine : Line line) (server : s.server = .reading) :
    ∃ s', s.commServe true = some s' ∧ s'.calls = done ++ [cstr (fgets bufLen line).1] ∧
      (line.length < bufLen → Working qbuf script done line rest s') := by
  have ready : State.Available bufLen s.toServer s.Gone := by
    rw [sent.toServer]
    exact .inl isLine.newline
  have nonempty : s.toServer ≠ [] := by
    rw [sent.toServer]
    exact isLine.nonempty
  refine ⟨_, by simp only [State.commServe, server, if_pos ready, if_neg nonempty, ↓reduceIte]; rfl, ?_, ?_⟩
  · change s.calls ++ [cstr (fgets bufLen s.toServer).1] = _
    rw [sent.calls, sent.toServer]
  · intro short
    have split : fgets bufLen s.toServer = (line, []) := by
      rw [sent.toServer]
      have whole := isLine.fgets short []
      rwa [List.append_nil] at whole
    refine ⟨⟨sent.script, sent.infile, sent.serving, sent.marker⟩, sent.client, ?_, sent.toClient, rfl, ?_, ?_, sent.printed,
      sent.answers⟩
    · exact congrArg Prod.snd split
    · change cstr (fgets bufLen s.toServer).1 = line
      rw [split]
      exact cstr_eq isLine.noNul
    · change s.calls ++ [cstr (fgets bufLen s.toServer).1] = _
      rw [split, sent.calls]
      exact congrArg (fun call => done ++ [call]) (cstr_eq isLine.noNul)

theorem Sent.wake (sent : Sent qbuf script done line rest s) (works : Bool) (server : s.server = .replying) (response : s.response = []) :
    ∃ s', s.commServe works = some s' ∧ Sent qbuf script done line rest s' ∧ s'.server = .reading :=
  ⟨_, commServe_wakes _ server response, ⟨⟨sent.script, sent.infile, sent.serving, sent.marker⟩, sent.client, sent.toServer,
    sent.toClient, .inl rfl, sent.calls, sent.printed, sent.answers⟩, rfl⟩

theorem Working.returns {response : CString} {store : Store} (working : Working qbuf script done line rest s) (isLine : Line line)
    (short : line.length < bufLen) (run : interpretCommand files maxLen depth line s.store = .ok (response, store)) :
    ∃ s', s.interpret files depth = .ok (some s') ∧ Answered qbuf script (done ++ [line]) rest s' := by
  obtain ⟨t, m, serving⟩ := working.serving
  obtain ⟨reply, serving'⟩ := serving.returned (Nat.le_of_lt_succ short) isLine.noNul run
  refine ⟨_, by simp only [State.interpret, working.server, working.command, run]; rfl, ?_⟩
  refine ⟨⟨working.script, working.infile, serving', working.marker⟩, working.client, working.toServer, working.toClient, rfl,
    reply, working.calls, s.answers, rfl, working.printed, ?_⟩
  rw [working.answers, List.length_append, List.length_singleton]

theorem Answered.serve (answered : Answered qbuf script done rest s) :
    ∃ s', s.commServe true = some s' ∧ Replied qbuf script done rest s' := by
  have some_ : s.response.length > 0 := List.length_pos_iff.mpr answered.reply.nonempty
  refine ⟨_, by simp only [State.commServe, answered.server, if_pos some_, ↓reduceIte]; rfl, ?_⟩
  refine ⟨⟨answered.script, answered.infile, answered.serving, answered.marker⟩, answered.client, answered.toServer, ?_, rfl,
    answered.reply, answered.calls, answered.behind⟩
  change s.toClient ++ s.response ++ [byte '\n'] = _
  rw [answered.toClient, List.nil_append]

theorem Answered.unfailing (answered : Answered qbuf script done rest s) : s.commServe false = none := by
  have some_ : s.response.length > 0 := List.length_pos_iff.mpr answered.reply.nonempty
  have fine : ¬(s.Gone ∨ s.toServer ≠ []) := by
    rintro (gone | unread)
    · exact present_of_awaiting answered.client gone
    · exact unread answered.toServer
  simp only [State.commServe, answered.server, if_pos some_, if_neg fine, Bool.false_eq_true, ↓reduceIte]

theorem Replied.print (replied : Replied qbuf script done rest s) :
    ∃ s', s.runClient = some s' ∧ Quiet qbuf script done rest s' := by
  have ready : State.Available bufSize s.toClient (s.server = .closed) := by
    rw [replied.toClient]
    exact .inl (List.mem_append_right _ (List.mem_singleton_self _))
  have nonempty : s.toClient ≠ [] := by
    rw [replied.toClient]
    exact List.append_ne_nil_of_right_ne_nil _ (List.cons_ne_nil _ _)
  have split : fgets bufSize s.toClient = (s.response ++ [byte '\n'], []) := by
    rw [replied.toClient]
    apply fgets_line replied.reply.plain
    have short := replied.reply.short
    simp only [bufSize]
    omega
  have string : cstr (s.response ++ [byte '\n']) = s.response ++ [byte '\n'] := by
    apply cstr_eq
    simp only [List.mem_append, List.mem_singleton, not_or]
    exact ⟨replied.reply.noNul, by decide⟩
  obtain ⟨before, answers, printed, count⟩ := replied.behind
  refine ⟨_, by simp only [State.runClient, replied.client, if_pos ready, if_neg nonempty, split, string]; rfl, ?_⟩
  refine ⟨⟨replied.script, replied.infile, replied.serving, replied.marker⟩, rfl, replied.toServer, rfl, .inl replied.server,
    replied.calls, ?_, ?_⟩
  · change s.printed ++ [s.response ++ [byte '\n']] = s.answers.map _
    rw [answers, printed, List.map_append]
    rfl
  · change s.answers.length = done.length
    rw [answers, List.length_append, List.length_singleton, count]

theorem not_isCommand_marker {tail : CString} : ¬IsCommand (255 :: tail) := by
  rintro ⟨rest, same | same | same | same⟩
  · exact absurd (List.cons.inj same).1 (by decide)
  · exact absurd (List.cons.inj same).1 (by decide)
  · exact absurd (List.cons.inj same).1 (by decide)
  · exact absurd (List.cons.inj same).1 (by decide)

theorem Leaving.present (leaving : Leaving qbuf script s) (room : qbuf ≠ []) : s.toServer ≠ [] := by
  obtain ⟨tail, marker⟩ := markerAfter_head room script
  rw [leaving.toServer, marker]
  exact List.cons_ne_nil _ _

/-- The first line of the end marker is no command. -/
theorem Leaving.read (leaving : Leaving qbuf script s) (room : qbuf ≠ []) (server : s.server = .reading) :
    ∃ s' tail, s.commServe true = some s' ∧ s'.client = .finished ∧ s'.server = .interpreting ∧ s'.command = 255 :: tail ∧
      s'.command.length ≤ 255 ∧ 0 ∉ s'.command ∧ s'.calls = script ++ [s'.command] ∧ s'.toServer = (fgets bufLen (markerAfter qbuf script)).2 ∧
      s'.printed = s.printed ∧ s'.answers = s.answers ∧ s'.store = s.store := by
  have ready : State.Available bufLen s.toServer s.Gone := .inr (.inr (.inl leaving.client))
  have nonempty := leaving.present room
  obtain ⟨tail, marker⟩ := markerAfter_head room script
  have bound := fgets_length bufLen s.toServer
  have positive := fgets_pos (show 1 < bufLen by decide) nonempty
  have split := fgets_append bufLen s.toServer
  rw [leaving.toServer, marker] at split bound positive
  cases isFirst : (fgets bufLen (255 :: tail)).1 with
  | nil =>
    rw [isFirst] at positive
    cases positive
  | cons c first =>
    rw [isFirst] at split bound
    obtain ⟨rfl, _⟩ := List.cons.inj split
    have string : cstr (255 :: first : CString) = 255 :: cstr first := rfl
    refine ⟨_, cstr first, by simp only [State.commServe, server, if_pos ready, if_neg nonempty, ↓reduceIte]; rfl, ?_⟩
    refine ⟨leaving.client, rfl, ?_, ?_, cstr_noNul _, ?_, ?_, rfl, rfl, rfl⟩
    · change cstr (fgets bufLen s.toServer).1 = _
      rw [leaving.toServer, marker, isFirst]
      exact string
    · change (cstr (fgets bufLen s.toServer).1).length ≤ 255
      exact Nat.le_trans (List.takeWhile_prefix _).length_le (fgets_length bufLen s.toServer)
    · change s.calls ++ _ = _
      rw [leaving.calls]
    · change (fgets bufLen s.toServer).2 = _
      rw [leaving.toServer]

theorem Leaving.wake (leaving : Leaving qbuf script s) (works : Bool) (server : s.server = .replying) (response : s.response = []) :
    ∃ s', s.commServe works = some s' ∧ Leaving qbuf script s' ∧ s'.server = .reading :=
  ⟨_, commServe_wakes _ server response, ⟨leaving.client, leaving.toServer, leaving.toClient, .inl rfl, leaving.calls,
    leaving.printed, leaving.answers, leaving.serving⟩, rfl⟩

end Cs1330.Connection
