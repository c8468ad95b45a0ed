import Cs1330.Lib.Trace
import Cs1330.Server.Cancellation

/-!
# Stopping and going on

The threads of `Cs1330.Server.Cancellation` with a log of what `stop` and `go` are about: the tests
of `stopped` in `client_control_wait`, the calls of `interpret_command` in `run_client`, and the
calls of `client_control_stop` and `client_control_release`. A thread that has come back from
`client_control_wait` starts `interpret_command` in a step of its own, since `stop` may come between.
-/

namespace Cs1330.Server.Locks
open Trace

inductive Event where
  /-- the test of `stopped`, with what it found -/
  | tested (client : ClientId) (stopped : Bool)
  /-- `run_client` calls `interpret_command` -/
  | started (client : ClientId)
  | stop
  | release
  deriving DecidableEq, Repr

def Event.client : Event → Option ClientId
  | tested c _ => some c
  | started c => some c
  | stop => none
  | release => none

/-- Where the thread of a client stands. -/
def State.place (s : State) (c : ClientId) : Option Pc := (s.threads c).map Thread.pc

/-- What an action adds to the log. -/
def State.events (s : State) : Action → List Event
  | .client c _ => if s.place c = some .testing then [.tested c s.stopped] else []
  | .main .stop => if s.main = .commands then [.stop] else []
  | .main .go => if s.main = .commands then [.release] else []
  | _ => []

structure Watched where
  state : State
  /-- since it last came back from `client_control_wait` the thread has called `interpret_command` -/
  begun : ClientId → Bool
  log : List Event

def Watched.initial : Watched := ⟨.initial, fun _ => false, []⟩

/-- Thread `c` is back from `client_control_wait` and has not called `interpret_command` yet. -/
def Watched.Between (w : Watched) (c : ClientId) : Prop :=
  w.state.place c = some (.interpreting 0) ∧ w.begun c = false

instance (w : Watched) (c : ClientId) : Decidable (w.Between c) := inferInstanceAs (Decidable (_ ∧ _))

/-- The thread that an action moves. -/
def Action.mover : Action → Option ClientId
  | .client c _ => some c
  | .cancel c => some c
  | _ => none

/-- Which threads have called `interpret_command` when an action is over. -/
def Watched.begunAfter (w : Watched) : Action → ClientId → Bool
  | .client c _ => if w.state.place c = some .passing then Function.update w.begun c false else w.begun
  | _ => w.begun

inductive Move where
  /-- the call of `interpret_command` in `run_client` -/
  | start (client : ClientId)
  | act (action : Action)

def Watched.step (w : Watched) : Move → Except Db.Fault (Option Watched)
  | .start c =>
    return if w.Between c then some { w with begun := Function.update w.begun c true, log := w.log ++ [.started c] } else none
  | .act action => do
    if ∃ c ∈ action.mover, w.Between c then
      return none
    match ← w.state.step action with
    | none => return none
    | some s => return some ⟨s, w.begunAfter action, w.log ++ w.state.events action⟩

/-- The states of all runs. -/
abbrev Watched.Reachable : Watched → Prop := Transition.Reachable Watched.step Watched.initial fun _ _ => True

variable {s s' : State} {c d : ClientId} {thread : Thread} {input : Input}

/-! ### What a step does about `go_mutex` -/

/-- The move of thread `c` from one place to another, with the owner of `go_mutex` before and after. -/
inductive Turn (c : ClientId) (stopped : Bool) : Option ClientId → Option ClientId → Pc → Pc → Prop
  | enter {pc : Pc} : pc.holds ≠ some .go → Turn c stopped none (some c) pc .testing
  | reenter {pc : Pc} : pc.holds ≠ some .go → Turn c stopped none (some c) pc .releasing
  | wait {owner : Option ClientId} : stopped = true → Turn c stopped owner none .testing .blocked
  | pass {owner : Option ClientId} : stopped = false → Turn c stopped owner owner .testing .passing
  | leave {owner : Option ClientId} : Turn c stopped owner none .passing (.interpreting 0)
  | drop {owner : Option ClientId} : Turn c stopped owner none .releasing .leaving
  | other {owner : Option ClientId} {pc pc' : Pc} : pc.holds ≠ some .go → pc'.holds ≠ some .go → pc' ≠ .interpreting 0 →
      Turn c stopped owner owner pc pc'

/-- A step of thread `c` from one state to the next. -/
structure Turns (s s' : State) (c : ClientId) (pc pc' : Pc) : Prop where
  before : s.place c = some pc
  after : s'.place c = some pc'
  others : ∀ d, d ≠ c → s'.threads d = s.threads d
  created : s'.created = s.created
  stopped : s'.stopped = s.stopped
  turn : Turn c s.stopped (s.owner .go) (s'.owner .go) pc pc'

theorem turns_of_update (thread' : Thread) (found : s.threads c = some thread)
    (threads : s'.threads = Function.update s.threads c (some thread')) (created : s'.created = s.created)
    (stopped : s'.stopped = s.stopped) (turn : Turn c s.stopped (s.owner .go) (s'.owner .go) thread.pc thread'.pc) :
    Turns s s' c thread.pc thread'.pc := by
  refine ⟨by rw [State.place, found]; rfl, ?_, ?_, created, stopped, turn⟩
  · rw [State.place, threads, Function.update_self]
    rfl
  · intro d different
    rw [threads, Function.update_of_ne different]

theorem turns_elsewhere (thread' : Thread) (found : s.threads c = some thread)
    (threads : s'.threads = Function.update s.threads c (some thread')) (created : s'.created = s.created)
    (stopped : s'.stopped = s.stopped) (owner : s'.owner .go = s.owner .go) (before : thread.pc.holds ≠ some .go)
    (after : thread'.pc.holds ≠ some .go) (notFirst : thread'.pc ≠ .interpreting 0) :
    Turns s s' c thread.pc thread'.pc := by
  apply turns_of_update _ found threads created stopped
  rw [owner]
  exact .other before after notFirst

theorem lock_turns {m : Mutex} {pc : Pc} (found : s.threads c = some thread) (run : s.lock c thread m pc = some s')
    (other : m ≠ .go) (before : thread.pc.holds ≠ some .go) (after : pc.holds ≠ some .go) (notFirst : pc ≠ .interpreting 0) :
    Turns s s' c thread.pc pc := by
  unfold State.lock at run
  split at run
  · cases run
    exact turns_elsewhere { thread with pc := pc } found rfl rfl rfl (Function.update_of_ne (Ne.symm other) _ _) before after notFirst
  · cases run

theorem lockGo_turns {pc : Pc} (found : s.threads c = some thread) (run : s.lock c thread .go pc = some s')
    (before : thread.pc.holds ≠ some .go) (after : pc = .testing ∨ pc = .releasing) : Turns s s' c thread.pc pc := by
  unfold State.lock at run
  split at run
  · rename_i free
    cases run
    refine turns_of_update { thread with pc := pc } found rfl rfl rfl ?_
    have owner : ({ s with owner := Function.update s.owner .go (some c) }.goto c thread pc).owner .go = some c := by
      simp [State.goto]
    rw [free, owner]
    rcases after with rfl | rfl
    · exact .enter before
    · exact .reenter before
  · cases run

theorem database_turns {action : Db.Action} {next : Db.System → Pc} (found : s.threads c = some thread)
    (run : s.database c thread action next = .ok (some s')) (before : thread.pc.holds ≠ some .go)
    (after : ∀ db, (next db).holds ≠ some .go ∧ next db ≠ .interpreting 0) : ∃ pc pc', Turns s s' c pc pc' := by
  unfold State.database at run
  obtain ⟨result, _, run⟩ := Run.except_bind run
  cases result with
  | none => cases run
  | some db =>
    cases run
    exact ⟨_, _, turns_elsewhere _ found rfl rfl rfl rfl before (after db).1 (after db).2⟩

theorem returned_elsewhere (files : Nat) : (Pc.returned files).holds ≠ some .go ∧ Pc.returned files ≠ .interpreting 0 := by
  cases files with
  | zero => decide
  | succ files => simp [Pc.returned, Pc.holds]

theorem runClient_turns (run : s.runClient c input = .ok (some s')) : ∃ pc pc', Turns s s' c pc pc' := by
  unfold State.runClient at run
  cases found : s.threads c with
  | none =>
    rw [found] at run
    cases run
  | some thread =>
    rw [found] at run
    obtain ⟨pc, cancelled, exiting, incremented, decremented, signalled⟩ := thread
    cases pc with
    | start =>
      cases run
      split
      · exact ⟨_, _, turns_elsewhere _ found rfl rfl rfl rfl (by simp [Pc.holds]) (by simp [Pc.holds]) (by simp)⟩
      · exact ⟨_, _, turns_elsewhere _ found rfl rfl rfl rfl (by simp [Pc.holds]) (by simp [Pc.holds]) (by simp)⟩
    | admitted | counted | leaving | unlinked =>
      exact ⟨_, _, lock_turns found (Except.ok.inj run) (by simp) (by simp [Pc.holds]) (by simp [Pc.holds]) (by simp)⟩
    | counting | inserting | unlinking | unlocking | uncounting | reporting | signalling =>
      cases run
      exact ⟨_, _, turns_elsewhere _ found rfl rfl rfl rfl (by simp [Pc.holds]) (by simp [Pc.holds]) (by simp)⟩
    | replying | reading | closing =>
      cases run
      split
      · exact ⟨_, _, turns_elsewhere _ found rfl rfl rfl rfl (by simp [Pc.holds]) (by simp [Pc.holds]) (by simp)⟩
      · exact ⟨_, _, turns_elsewhere _ found rfl rfl rfl rfl (by simp [Pc.holds]) (by simp [Pc.holds]) (by simp)⟩
    | ready | blocked => exact ⟨_, _, lockGo_turns found (Except.ok.inj run) (by simp [Pc.holds]) (.inl rfl)⟩
    | unblocking => exact ⟨_, _, lockGo_turns found (Except.ok.inj run) (by simp [Pc.holds]) (.inr rfl)⟩
    | testing =>
      cases run
      cases isStopped : s.stopped with
      | true => exact ⟨_, _, turns_of_update _ found rfl rfl rfl (.wait isStopped)⟩
      | false => exact ⟨_, _, turns_of_update _ found rfl rfl rfl (.pass isStopped)⟩
    | passing =>
      cases run
      exact ⟨_, _, turns_of_update _ found rfl rfl rfl .leave⟩
    | releasing =>
      cases run
      exact ⟨_, _, turns_of_update _ found rfl rfl rfl .drop⟩
    | interpreting files =>
      cases input with
      | command call => exact database_turns found run (by simp [Pc.holds]) fun _ => by simp [Pc.holds]
      | file =>
        cases run
        exact ⟨_, _, turns_elsewhere _ found rfl rfl rfl rfl (by simp [Pc.holds]) (by simp [Pc.holds]) (by simp)⟩
      | succeeds =>
        cases run
        exact ⟨_, _, turns_elsewhere _ found rfl rfl rfl rfl (by simp [Pc.holds]) (returned_elsewhere files).1 (returned_elsewhere files).2⟩
      | fails =>
        cases run
        exact ⟨_, _, turns_elsewhere _ found rfl rfl rfl rfl (by simp [Pc.holds]) (returned_elsewhere files).1 (returned_elsewhere files).2⟩
    | scanning files =>
      cases run
      split
      · exact ⟨_, _, turns_elsewhere _ found rfl rfl rfl rfl (by simp [Pc.holds]) (returned_elsewhere files).1 (returned_elsewhere files).2⟩
      · exact ⟨_, _, turns_elsewhere _ found rfl rfl rfl rfl (by simp [Pc.holds]) (by simp [Pc.holds]) (by simp)⟩
    | inCall files =>
      apply database_turns found run (by simp [Pc.holds])
      intro db
      split
      · exact returned_elsewhere files
      · simp [Pc.holds]
    | terminated => cases run

theorem actOnCancel_turns (run : s.actOnCancel c = some s') : ∃ pc pc', Turns s s' c pc pc' ∧ pc ≠ .testing := by
  unfold State.actOnCancel at run
  cases found : s.threads c with
  | none =>
    rw [found] at run
    cases run
  | some thread =>
    rw [found] at run
    by_cases requested : thread.cancelled = true ∧ thread.exiting = false
    · simp only [if_pos requested] at run
      obtain ⟨pc, cancelled, exiting, incremented, decremented, signalled⟩ := thread
      cases pc with
      | replying | reading | interpreting _ | scanning _ | blocked | closing | reporting =>
        cases run
        exact ⟨_, _, turns_elsewhere _ found rfl rfl rfl rfl (by simp [Pc.holds]) (by simp [Pc.holds]) (by simp), by simp⟩
      | inCall files =>
        simp only at run
        split at run
        · cases run
          exact ⟨_, _, turns_elsewhere _ found rfl rfl rfl rfl (by simp [Pc.holds]) (by simp [Pc.holds]) (by simp), by simp⟩
        · cases run
      | _ => cases run
    · simp only [if_neg requested] at run
      cases run

/-! ### What the log says -/

def Event.flag (stopped : Bool) : Event → Bool
  | .stop => true
  | .release => false
  | _ => stopped

/-- The flag that these events leave. -/
def stoppedAfter (log : List Event) : Bool := log.foldl Event.flag false

/-- The last that the log says of `c` is a test that let it pass. -/
def Cleared (c : ClientId) (log : List Event) : Prop :=
  ∃ l₁ l₂, log = l₁ ++ .tested c false :: l₂ ∧ ∀ e ∈ l₂, e.client ≠ some c

/-- What may be added to a log: a test that finds the flag as it is, a call by a thread that was let pass. -/
def Lawful (log : List Event) : Event → Prop
  | .tested _ stopped => stopped = stoppedAfter log
  | .started c => Cleared c log
  | _ => True

variable {log pre mid : List Event} {w : Watched}

theorem stoppedAfter_append (log more : List Event) : stoppedAfter (log ++ more) = more.foldl Event.flag (stoppedAfter log) :=
  List.foldl_append

theorem Cleared.append {more : List Event} (cleared : Cleared c log) (silent : ∀ e ∈ more, e.client ≠ some c) :
    Cleared c (log ++ more) := by
  obtain ⟨l₁, l₂, rfl, rest⟩ := cleared
  refine ⟨l₁, l₂ ++ more, by simp, ?_⟩
  intro e member
  rcases List.mem_append.mp member with inRest | inMore
  · exact rest e inRest
  · exact silent e inMore

theorem stoppedAfter_stop (unreleased : Event.release ∉ mid) : stoppedAfter (pre ++ .stop :: mid) = true := by
  have keeps : ∀ {stopped : Bool}, stopped = true → mid.foldl Event.flag stopped = true := by
    induction mid with
    | nil => exact fun isTrue => isTrue
    | cons e mid ih =>
      intro stopped isTrue
      obtain ⟨notHere, later⟩ := not_or.mp (mt List.mem_cons.mpr unreleased)
      apply ih later
      cases e with
      | stop => rfl
      | release => exact (notHere rfl).elim
      | tested c found => exact isTrue
      | started c => exact isTrue
  rw [stoppedAfter_append]
  exact keeps rfl

theorem Lawful.at {e : Event} {l₁ l₂ : List Event} (lawful : Along record Lawful [] (l₁ ++ e :: l₂)) : Lawful l₁ e := by
  have holds := lawful.at
  rwa [foldl_record] at holds

/-- A thread that is cleared while the server is stopped was so before, and the log has not mentioned
it since. -/
theorem cleared_before (lawful : Along record Lawful [] (pre ++ .stop :: mid)) (unreleased : Event.release ∉ mid)
    (cleared : Cleared c (pre ++ .stop :: mid)) : Cleared c pre ∧ ∀ e ∈ mid, e.client ≠ some c := by
  obtain ⟨l₁, l₂, split, silent⟩ := cleared
  rcases List.append_eq_append_iff.mp split with ⟨more, rfl, within⟩ | ⟨more, rfl, within⟩
  · cases more with
    | nil => cases within
    | cons e more =>
      rw [List.cons_append] at within
      obtain ⟨rfl, rfl⟩ := List.cons.inj within
      -- A test in the meantime finds the flag set.
      rw [← List.cons_append, ← List.append_assoc] at lawful
      have found : false = stoppedAfter (pre ++ .stop :: more) := Lawful.at lawful
      rw [stoppedAfter_stop fun member => unreleased (List.mem_append_left _ member)] at found
      cases found
  · cases more with
    | nil => cases within
    | cons e more =>
      rw [List.cons_append] at within
      obtain ⟨rfl, rfl⟩ := List.cons.inj within
      refine ⟨⟨l₁, more, rfl, fun e member => silent e (List.mem_append_left _ member)⟩, ?_⟩
      exact fun e member => silent e (List.mem_append_right _ (List.mem_cons_of_mem _ member))

/-! ### The invariant -/

structure Watching (w : Watched) : Prop where
  owned : ∀ c, w.state.owner .go = some c ↔ ∃ pc, w.state.place c = some pc ∧ pc.holds = some .go
  fresh : ∀ c, w.state.created ≤ c → w.state.threads c = none
  flag : w.state.stopped = stoppedAfter w.log
  cleared : ∀ c, w.state.place c = some .passing ∨ w.Between c → Cleared c w.log
  lawful : Along record Lawful [] w.log

theorem watching_initial : Watching .initial := by
  refine ⟨?_, fun _ _ => rfl, rfl, ?_, trivial⟩
  · intro c
    constructor
    · intro owns
      cases owns
    · intro ⟨pc, stands, _⟩
      cases stands
  · intro c stands
    rcases stands with stands | ⟨stands, _⟩
    · cases stands
    · cases stands

theorem lawful_append {events : List Event} (lawful : Along record Lawful [] log) (added : Along record Lawful log events) :
    Along record Lawful [] (log ++ events) := by
  apply along_append.mpr ⟨lawful, ?_⟩
  rw [foldl_record]
  exact added

theorem Watching.start (watching : Watching w) (between : w.Between c) :
    Watching { w with begun := Function.update w.begun c true, log := w.log ++ [.started c] } := by
  refine ⟨watching.owned, watching.fresh, ?_, ?_, lawful_append watching.lawful ⟨watching.cleared c (.inr between), trivial⟩⟩
  · rw [stoppedAfter_append]
    exact watching.flag
  · intro d stands
    by_cases same : d = c
    · subst same
      rcases stands with stands | ⟨_, begun⟩
      · cases between.1.symm.trans stands
      · change Function.update w.begun d true d = false at begun
        rw [Function.update_self] at begun
        cases begun
    · have before : w.state.place d = some .passing ∨ w.Between d := by
        rcases stands with stands | ⟨stands, begun⟩
        · exact .inl stands
        · exact .inr ⟨stands, (Function.update_of_ne same true w.begun).symm.trans begun⟩
      apply (watching.cleared d before).append
      simp [Event.client, Ne.symm same]

/-- The owner of `go_mutex` after a turn: the thread that made it, if it stands in the section. -/
theorem Turn.owned {stopped : Bool} {owner owner' : Option ClientId} {pc pc' : Pc} (turn : Turn c stopped owner owner' pc pc')
    (owned : owner = some c ↔ pc.holds = some .go) :
    (owner' = some c ↔ pc'.holds = some .go) ∧ ∀ d, d ≠ c → (owner' = some d ↔ owner = some d) := by
  have left : ∀ {pc : Pc}, pc.holds = some .go → (owner = some c ↔ pc.holds = some .go) →
      ∀ d, d ≠ c → (none = some d ↔ owner = some d) := by
    intro pc holds owned d different
    rw [owned.mpr holds]
    simp [Ne.symm different]
  cases turn with
  | enter _ => exact ⟨by simp [Pc.holds], fun d different => by simp [Ne.symm different]⟩
  | reenter _ => exact ⟨by simp [Pc.holds], fun d different => by simp [Ne.symm different]⟩
  | wait _ => exact ⟨by simp [Pc.holds], left rfl owned⟩
  | pass _ => exact ⟨owned, fun _ _ => Iff.rfl⟩
  | leave => exact ⟨by simp [Pc.holds], left rfl owned⟩
  | drop => exact ⟨by simp [Pc.holds], left rfl owned⟩
  | other before after _ => exact ⟨iff_of_false (fun owns => before (owned.mp owns)) after, fun _ _ => Iff.rfl⟩

/-- On the way to `interpret_command` a thread comes from a test that let it pass. -/
theorem Turn.arrives {stopped : Bool} {owner owner' : Option ClientId} {pc pc' : Pc} (turn : Turn c stopped owner owner' pc pc')
    (arrived : pc' = .passing ∨ pc' = .interpreting 0) : pc = .testing ∧ stopped = false ∨ pc = .passing := by
  cases turn with
  | enter _ | reenter _ | wait _ | drop =>
    rcases arrived with arrived | arrived
    · cases arrived
    · cases arrived
  | pass isFalse => exact .inl ⟨rfl, isFalse⟩
  | leave => exact .inr rfl
  | other _ after notFirst =>
    rcases arrived with rfl | rfl
    · exact (after rfl).elim
    · exact (notFirst rfl).elim

theorem Watching.turn {pc pc' : Pc} {begun : ClientId → Bool} {events : List Event} (watching : Watching w)
    (turns : Turns w.state s' c pc pc') (logged : events = if pc = .testing then [.tested c w.state.stopped] else [])
    (others : ∀ d, d ≠ c → begun d = w.begun d) : Watching ⟨s', begun, w.log ++ events⟩ := by
  have there : ∀ d, d ≠ c → s'.place d = w.state.place d := by
    intro d different
    rw [State.place, turns.others d different]
    rfl
  have owned : w.state.owner .go = some c ↔ pc.holds = some .go := by
    rw [watching.owned c, turns.before]
    simp
  obtain ⟨own, foreign⟩ := turns.turn.owned owned
  have silent : ∀ d, d ≠ c → ∀ e ∈ events, e.client ≠ some d := by
    intro d different e member
    rw [logged] at member
    split at member
    · obtain rfl := List.mem_singleton.mp member
      simp [Event.client, Ne.symm different]
    · cases member
  refine ⟨?_, ?_, ?_, ?_, lawful_append watching.lawful ?_⟩
  · intro d
    by_cases same : d = c
    · subst same
      rw [own, turns.after]
      simp
    · rw [foreign d same, there d same]
      exact watching.owned d
  · intro d late
    have late : w.state.created ≤ d := turns.created ▸ late
    have unused := watching.fresh d late
    have different : d ≠ c := by
      rintro rfl
      have stands := turns.before
      rw [State.place, unused] at stands
      cases stands
    exact (turns.others d different).trans unused
  · change s'.stopped = stoppedAfter (w.log ++ events)
    rw [turns.stopped, stoppedAfter_append, ← watching.flag, logged]
    split
    · rfl
    · rfl
  · intro d stands
    by_cases same : d = c
    · subst same
      have arrived : pc' = .passing ∨ pc' = .interpreting 0 := by
        have after : s'.place d = some pc' := turns.after
        rcases stands with stands | ⟨stands, _⟩
        · exact .inl (Option.some.inj (after.symm.trans stands))
        · exact .inr (Option.some.inj (after.symm.trans stands))
      rcases turns.turn.arrives arrived with ⟨rfl, unset⟩ | rfl
      · exact ⟨w.log, [], by rw [logged, if_pos rfl, unset], by simp⟩
      · apply (watching.cleared d (.inl turns.before)).append
        simp [logged]
    · have before : w.state.place d = some .passing ∨ w.Between d := by
        rcases stands with stands | ⟨stands, notBegun⟩
        · exact .inl ((there d same).symm.trans stands)
        · exact .inr ⟨(there d same).symm.trans stands, (others d same).symm.trans notBegun⟩
      exact (watching.cleared d before).append (silent d same)
  · rw [logged]
    split
    · exact ⟨watching.flag, trivial⟩
    · trivial

theorem lawful_flags {events : List Event} (nobody : ∀ e ∈ events, e = .stop ∨ e = .release) :
    Along record Lawful log events := by
  induction events generalizing log with
  | nil => trivial
  | cons e events ih =>
    refine ⟨?_, ih fun e member => nobody e (List.mem_cons_of_mem _ member)⟩
    rcases nobody e List.mem_cons_self with rfl | rfl
    · trivial
    · trivial

/-- A step that moves no thread; at most a new one begins. -/
theorem Watching.still {events : List Event} (watching : Watching w)
    (places : ∀ c, s'.place c = w.state.place c ∨ w.state.threads c = none ∧ s'.place c = some .start)
    (owner : s'.owner .go = w.state.owner .go) (fresh : ∀ c, s'.created ≤ c → s'.threads c = none)
    (flag : s'.stopped = stoppedAfter (w.log ++ events)) (nobody : ∀ e ∈ events, e = .stop ∨ e = .release) :
    Watching ⟨s', w.begun, w.log ++ events⟩ := by
  refine ⟨?_, fresh, flag, ?_, lawful_append watching.lawful ?_⟩
  · intro c
    change s'.owner .go = some c ↔ ∃ pc, s'.place c = some pc ∧ pc.holds = some .go
    rw [owner, watching.owned c]
    rcases places c with same | ⟨unused, new⟩
    · rw [same]
    · have nowhere : w.state.place c = none := by rw [State.place, unused]; rfl
      simp [nowhere, new, Pc.holds]
  · intro c stands
    have before : w.state.place c = some .passing ∨ w.Between c := by
      rcases places c with same | ⟨_, new⟩
      · rcases stands with stands | ⟨stands, begun⟩
        · exact .inl (same.symm.trans stands)
        · exact .inr ⟨same.symm.trans stands, begun⟩
      · rcases stands with stands | ⟨stands, _⟩
        · cases new.symm.trans stands
        · cases new.symm.trans stands
    apply (watching.cleared c before).append
    intro e member
    rcases nobody e member with rfl | rfl
    · simp [Event.client]
    · simp [Event.client]
  · exact lawful_flags nobody

theorem Watching.connect (watching : Watching w) : Watching ⟨w.state.connect, w.begun, w.log ++ []⟩ := by
  have unused := watching.fresh w.state.created (Nat.le_refl _)
  apply watching.still
  · intro c
    by_cases new : c = w.state.created
    · subst new
      exact .inr ⟨unused, by simp [State.place, State.connect]⟩
    · exact .inl (by simp [State.place, State.connect, new])
  · rfl
  · intro c late
    change w.state.created + 1 ≤ c at late
    have other : c ≠ w.state.created := by omega
    exact (Function.update_of_ne other _ _).trans (watching.fresh c (by omega))
  · rw [List.append_nil]
    exact watching.flag
  · simp

theorem deleteAll_place (run : s.deleteAll = some s') : (∀ c, s'.place c = s.place c) ∧ (∀ c, s.threads c = none → s'.threads c = none) ∧
    s'.owner = s.owner ∧ s'.created = s.created ∧ s'.stopped = s.stopped := by
  unfold State.deleteAll at run
  split at run
  · cases run
    refine ⟨?_, ?_, rfl, rfl, rfl⟩
    · intro c
      rw [State.place, State.place, Option.map_map]
      congr 1
      funext thread
      by_cases listed : thread.pc.listed = true
      · simp [State.pthreadCancel, listed]
      · simp [listed]
    · intro c unused
      simp [unused]
  · cases run

theorem Watching.deleteAll {s'' : State} (watching : Watching w) (run : w.state.deleteAll = some s')
    (threads : s''.threads = s'.threads) (owner : s''.owner = s'.owner) (created : s''.created = s'.created)
    (stopped : s''.stopped = s'.stopped) : Watching ⟨s'', w.begun, w.log ++ []⟩ := by
  obtain ⟨places, unused, owners, count, flag⟩ := deleteAll_place run
  apply watching.still
  · intro c
    refine .inl ?_
    rw [State.place, threads]
    exact places c
  · rw [owner, owners]
  · intro c late
    rw [threads]
    apply unused c (watching.fresh c _)
    rw [← count, ← created]
    exact late
  · rw [List.append_nil, stopped, flag]
    exact watching.flag
  · simp

theorem Watching.unmoved {events : List Event} (watching : Watching w) (threads : s'.threads = w.state.threads)
    (owner : s'.owner = w.state.owner) (created : s'.created = w.state.created)
    (flag : s'.stopped = stoppedAfter (w.log ++ events)) (nobody : ∀ e ∈ events, e = .stop ∨ e = .release) :
    Watching ⟨s', w.begun, w.log ++ events⟩ := by
  refine watching.still ?_ (by rw [owner]) ?_ flag nobody
  · intro c
    refine .inl ?_
    rw [State.place, threads]
    rfl
  · intro c late
    rw [threads]
    exact watching.fresh c (created ▸ late)

theorem Watching.setStopped {stopped : Bool} {e : Event} (watching : Watching w) (run : w.state.setStopped stopped = some s')
    (isEvent : e = .stop ∨ e = .release) (flag : e.flag w.state.stopped = stopped) :
    Watching ⟨s', w.begun, w.log ++ [e]⟩ := by
  unfold State.setStopped at run
  split at run
  · cases run
    refine watching.unmoved rfl rfl rfl ?_ (by simpa using isEvent)
    rw [stoppedAfter_append, ← watching.flag]
    exact flag.symm
  · cases run

theorem events_later {command : MainCommand} (later : s.main ≠ .commands) : s.events (.main command) = [] := by
  cases command with
  | stop | go => exact if_neg later
  | print | eof => rfl

theorem Watching.runMain {command : MainCommand} (watching : Watching w) (run : w.state.runMain command = some s') :
    Watching ⟨s', w.begun, w.log ++ w.state.events (.main command)⟩ := by
  have kept : w.state.stopped = stoppedAfter (w.log ++ []) := by
    rw [List.append_nil]
    exact watching.flag
  unfold State.runMain at run
  cases stands : w.state.main with
  | commands =>
    rw [stands] at run
    cases command with
    | stop =>
      rw [State.events, if_pos stands]
      exact watching.setStopped run (.inl rfl) rfl
    | go =>
      rw [State.events, if_pos stands]
      exact watching.setStopped run (.inr rfl) rfl
    | print | eof =>
      cases run
      exact watching.unmoved rfl rfl rfl kept (by simp [State.events])
  | closing =>
    rw [stands] at run
    cases run
    rw [events_later (by simp [stands])]
    exact watching.unmoved rfl rfl rfl kept (by simp)
  | refusing =>
    rw [stands] at run
    obtain ⟨next, marked, rfl⟩ := Option.map_eq_some_iff.mp run
    rw [events_later (by simp [stands])]
    exact watching.deleteAll marked rfl rfl rfl rfl
  | waiting =>
    rw [stands] at run
    rw [events_later (by simp [stands])]
    simp only at run
    split at run
    · cases run
      exact watching.unmoved rfl rfl rfl kept (by simp)
    · cases run
  | cleaning | cleaned =>
    rw [stands] at run
    cases run

theorem Watching.act {action : Action} (watching : Watching w) (run : w.state.step action = .ok (some s')) :
    Watching ⟨s', w.begunAfter action, w.log ++ w.state.events action⟩ := by
  cases action with
  | connect =>
    cases run
    exact watching.connect
  | client c input =>
    obtain ⟨pc, pc', turns⟩ := runClient_turns run
    refine watching.turn turns ?_ ?_
    · rw [State.events, turns.before]
      simp
    · intro d different
      rw [Watched.begunAfter]
      split
      · exact Function.update_of_ne different _ _
      · rfl
  | cancel c =>
    obtain ⟨pc, pc', turns, notTesting⟩ := actOnCancel_turns (Except.ok.inj run)
    exact watching.turn turns (if_neg notTesting).symm fun _ _ => rfl
  | sigint =>
    have run := Except.ok.inj run
    split at run
    · exact watching.deleteAll run rfl rfl rfl rfl
    · cases run
  | main command => exact watching.runMain (Except.ok.inj run)

theorem Watching.step {w' : Watched} {move : Move} (watching : Watching w) (run : w.step move = .ok (some w')) : Watching w' := by
  cases move with
  | start c =>
    have run := Except.ok.inj run
    split at run
    · rename_i between
      cases run
      exact watching.start between
    · cases run
  | act action =>
    rw [Watched.step] at run
    split at run
    · cases run
    · obtain ⟨result, stepped, run⟩ := Run.except_bind run
      cases result with
      | none => cases run
      | some s' =>
        cases run
        exact watching.act stepped

theorem Watched.step_act {action : Action} (free : ¬∃ c ∈ action.mover, w.Between c)
    (run : w.state.step action = .ok (some s')) :
    w.step (.act action) = .ok (some ⟨s', w.begunAfter action, w.log ++ w.state.events action⟩) := by
  rw [Watched.step, if_neg free, run]
  rfl

/-- Watching takes no run away. -/
theorem exists_watched (reachable : Locks.Reachable (fun _ _ => True) s) : ∃ w : Watched, w.Reachable ∧ w.state = s := by
  induction reachable with
  | initial => exact ⟨.initial, .initial, rfl⟩
  | @step s s' action _ _ run ih =>
    obtain ⟨w, reachable, rfl⟩ := ih
    by_cases pending : ∃ c ∈ action.mover, w.Between c
    · obtain ⟨c, isMover, between⟩ := pending
      have started : w.step (.start c) =
          .ok (some { w with begun := Function.update w.begun c true, log := w.log ++ [.started c] }) := by
        rw [Watched.step, if_pos between]
        rfl
      have free : ¬∃ d ∈ action.mover,
          Watched.Between { w with begun := Function.update w.begun c true, log := w.log ++ [.started c] } d := by
        intro pending
        obtain ⟨d, isMover', _, unbegun⟩ := pending
        obtain rfl := Option.some.inj (isMover.symm.trans isMover')
        change Function.update w.begun c true c = false at unbegun
        rw [Function.update_self] at unbegun
        cases unbegun
      exact ⟨_, (reachable.step (.start c) trivial started).step (.act action) trivial (Watched.step_act free run), rfl⟩
    · exact ⟨_, reachable.step (.act action) trivial (Watched.step_act pending run), rfl⟩

theorem watching_of_reachable (reachable : w.Reachable) : Watching w := by
  apply reachable.invariant watching_initial
  intro w w' move watching _ run
  exact watching.step run

/-! ### Stopped clients -/

/-- What a client thread does from a stop to the next release: it starts `interpret_command` once at
most, and then because its last test of `stopped` was before the stop. -/
structure Halted (pre mid : List Event) (c : ClientId) : Prop where
  once : mid.count (.started c) ≤ 1
  earlier : ∀ l₁ l₂, mid = l₁ ++ .started c :: l₂ → (∀ stopped, .tested c stopped ∉ l₁) ∧
    ∃ l₃ l₄, pre = l₃ ++ .tested c false :: l₄ ∧ ∀ stopped, .tested c stopped ∉ l₄

theorem halted {rest : List Event} (lawful : Along record Lawful [] (pre ++ .stop :: (mid ++ rest)))
    (unreleased : Event.release ∉ mid) (c : ClientId) : Halted pre mid c := by
  have before : ∀ l₁ l₂, mid = l₁ ++ .started c :: l₂ → Cleared c pre ∧ ∀ e ∈ l₁, e.client ≠ some c := by
    rintro l₁ l₂ rfl
    have split : pre ++ .stop :: (l₁ ++ .started c :: l₂ ++ rest) = (pre ++ .stop :: l₁) ++ .started c :: (l₂ ++ rest) := by
      simp
    rw [split] at lawful
    exact cleared_before (along_append.mp lawful).1 (fun member => unreleased (List.mem_append_left _ member)) (Lawful.at lawful)
  constructor
  · by_contra more
    have twice : (List.replicate 2 (Event.started c)).Sublist mid := List.replicate_sublist_iff.mpr (by omega)
    obtain ⟨first, second, rfl, inFirst, later⟩ := List.cons_sublist_iff.mp twice
    obtain ⟨l₁, l₂, rfl⟩ := List.append_of_mem (List.singleton_sublist.mp later)
    have silent := (before (first ++ l₁) l₂ (by simp)).2
    exact silent _ (List.mem_append_left _ inFirst) rfl
  · intro l₁ l₂ split
    obtain ⟨⟨l₃, l₄, isPre, silent⟩, untouched⟩ := before l₁ l₂ split
    exact ⟨fun _ member => untouched _ member rfl, l₃, l₄, isPre, fun _ member => silent _ member rfl⟩

/-- Between a stop and the next release each client thread starts `interpret_command` at most once,
after a test before the stop, and no thread keeps `go_mutex` outside of `client_control_wait`. -/
theorem stop_halts_clients (reachable : w.Reachable) :
    (∀ pre mid rest, w.log = pre ++ .stop :: (mid ++ rest) → Event.release ∉ mid → ∀ c, Halted pre mid c) ∧
    ∀ c, w.state.owner .go = some c →
      ∃ pc, w.state.place c = some pc ∧ (pc = .testing ∨ pc = .passing ∨ pc = .releasing) := by
  have watching := watching_of_reachable reachable
  constructor
  · intro pre mid rest isLog unreleased c
    have lawful := watching.lawful
    rw [isLog] at lawful
    exact halted lawful unreleased c
  · intro c owns
    obtain ⟨pc, stands, holds⟩ := (watching.owned c).mp owns
    refine ⟨pc, stands, ?_⟩
    cases pc with
    | testing | passing | releasing => simp
    | _ => cases holds

/-- The server is stopped when a client has just come back from `client_control_wait`. -/
def lateStop : List Move :=
  [Move.act .connect] ++ List.replicate 10 (Move.act (.client 0 .succeeds)) ++ [Move.act (.main .stop), Move.start 0] ++
    List.replicate 5 (Move.act (.client 0 .succeeds))

theorem stop_halts_clients_late : ∃ w, Transition.follow Watched.step (fun _ _ => True) lateStop .initial = some w ∧
    w.state.place 0 = some .blocked ∧ Halted [.tested 0 false] [.started 0, .tested 0 true] 0 := by
  have run : (Transition.follow Watched.step (fun _ _ => True) lateStop .initial).map (fun w => (w.state.place 0, w.log)) =
      some (some .blocked, [.tested 0 false, .stop, .started 0, .tested 0 true]) := by decide +kernel
  obtain ⟨w, found, view⟩ := Option.map_eq_some_iff.mp run
  obtain ⟨stands, isLog⟩ := Prod.mk.inj view
  have halts := (stop_halts_clients (Transition.follow_reachable .initial found)).1
  exact ⟨w, found, stands, halts [.tested 0 false] [.started 0, .tested 0 true] [] isLog (by decide) 0⟩

end Cs1330.Server.Locks
