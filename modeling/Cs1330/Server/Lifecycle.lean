import Cs1330.Server.Registry

/-!
# The life of a client record

A `client_t` is made by the listener, used by its own thread, by its neighbours in the list and by
`delete_all`, and given to `client_destructor` by its thread. Two orders break this: a thread that
is refused returns without the destructor, and the listener reads `client->thread` for
`pthread_detach` after the thread may have run to its end.
-/

namespace Cs1330.Server

structure Lifecycle where
  server : State
  /-- how often the client was given to `client_destructor` -/
  passed : ClientId → Nat
  /-- the thread runs its cleanup handlers because of a cancellation -/
  exiting : ClientId → Bool
  /-- a thread has ended in `client_destructor` with `server_mutex` locked -/
  stuck : Bool

inductive LifeAction where
  | act (action : Action)
  /-- a thread that runs `thread_cleanup` after a disconnection is cancelled in its `fclose` -/
  | abandon (client : ClientId)
  deriving DecidableEq, Repr

namespace Lifecycle

def initial : Lifecycle := ⟨State.initial, fun _ => 0, fun _ => false, false⟩

def pass (l : Lifecycle) (c : ClientId) : Lifecycle :=
  { l with passed := Function.update l.passed c (l.passed c + 1) }

/-- The next section is one under `server_mutex`. -/
def locksServer : Pc → Bool
  | .admitted | .unlinked => true
  | _ => false

/-- `comm_serve(client->cxstr, ..)` -/
def readStream (s : State) (c : ClientId) (pc : Pc) : Except Fault Unit :=
  if pc = .serving then do
    let _ ← s.getClient c
    return ()
  else return ()

def runClient (l : Lifecycle) (c : ClientId) (served : Bool) : Except Fault (Option Lifecycle) :=
  match l.server.pcOf c with
  | none => return none
  | some pc =>
    if l.stuck = true ∧ locksServer pc = true then return none
    else do
      readStream l.server c pc
      let next ← l.server.runClient c served
      return next.map fun s => { (if pc = .unlinked then l.pass c else l) with server := s }

/-- The record counts as gone from the call of `client_destructor` on. -/
def abandon (l : Lifecycle) (c : ClientId) : Except Fault (Option Lifecycle) :=
  match l.server.threads c with
  | none => return none
  | some thread =>
    if thread.pc = .unlinked ∧ thread.cancelled = true ∧ l.exiting c = false ∧ l.stuck = false then do
      let next ← l.server.runClient c false
      return next.map fun s => { l.pass c with server := s, stuck := true }
    else return none

def step (l : Lifecycle) : LifeAction → Except Fault (Option Lifecycle)
  | .act (.client c served) => l.runClient c served
  | .act (.cancel c) => return (l.server.actOnCancel c).map fun s =>
      { l with server := s, exiting := Function.update l.exiting c true }
  | .act (.main command) =>
    if l.stuck = true ∧ l.server.main = .waiting then return none
    else do return (← l.server.runMain command).map fun s => { l with server := s }
  | .act action => do return (← l.server.step action).map fun s => { l with server := s }
  | .abandon c => l.abandon c

/-- No thread is refused, and no thread gives its client to `client_destructor` before the listener
has detached it. -/
def Timely (l : Lifecycle) : LifeAction → Prop
  | .act (.client c _) => (l.server.pcOf c = some .start → l.server.acceptingClients ≠ 0) ∧
      (l.server.pcOf c = some .unlinked → l.server.listener ≠ some c)
  | .abandon c => l.server.listener ≠ some c
  | _ => True

instance (l : Lifecycle) : ∀ action, Decidable (l.Timely action)
  | .act (.client _ _) => inferInstanceAs (Decidable (_ ∧ _))
  | .act .connect | .act .detach | .act (.cancel _) | .act .sigint | .act (.main _) => isTrue trivial
  | .abandon _ => inferInstanceAs (Decidable (_ ≠ _))

abbrev Reachable (ok : Lifecycle → LifeAction → Prop) : Lifecycle → Prop := Transition.Reachable step initial ok

/-- Each client is given to the destructor at most once, and once when its thread has ended; no
step uses a client after that. -/
structure Sound (l : Lifecycle) : Prop where
  once : ∀ c, l.passed c ≤ 1
  ended : ∀ c, l.server.pcOf c = some .terminated → l.passed c = 1
  unused : ∀ action, ∃ next, l.step action = .ok next

end Lifecycle

/-! ### The invariant -/

variable {l l' : Lifecycle} {s s' : State} {c d : ClientId} {pc next : Pc} {clients : List ClientId}

structure Tended (l : Lifecycle) (clients : List ClientId) : Prop where
  registered : Registered l.server clients
  passed : ∀ c, l.passed c = if l.server.pcOf c = some .terminated then 1 else 0
  /-- the listener still holds only a client whose thread has not ended -/
  held : ∀ c ∈ l.server.listener, ∃ pc, l.server.pcOf c = some pc ∧ pc ≠ .terminated

theorem tended_initial : Tended .initial [] := by
  refine ⟨registered_initial, ?_, ?_⟩
  · intro c
    simp [Lifecycle.initial, State.initial, State.pcOf]
  · intro c held
    cases held

theorem Turn.terminates {events : List Event} (turn : Turn s c pc next events) :
    pc ≠ .terminated ∧ (next = .terminated ↔ pc = .unlinked ∨ pc = .start ∧ s.acceptingClients = 0) := by
  cases turn with
  | refuse closed => simp [closed]
  | accept opened => simp [opened]
  | block waits _ => rcases waits with rfl | rfl <;> simp
  | pass waits _ => rcases waits with rfl | rfl <;> simp
  | cancel point => cases pc <;> simp_all [Pc.cancellationPoint]
  | _ => simp

theorem Tended.held_live (tended : Tended l clients) (held : l.server.listener = some c) : l.server.clients c ≠ none := by
  obtain ⟨pc, found, running⟩ := tended.held c held
  exact tended.registered.live c pc found running

/-! ### One step -/

/-- What a step comes to: it does not fault, and keeps the invariant exactly when it is timely. -/
def Tends (l : Lifecycle) (action : LifeAction) (result : Except Fault (Option Lifecycle)) : Prop :=
  result = .ok none ∨ ∃ l', result = .ok (some l') ∧
    (l.Timely action → ∃ clients, Tended l' clients) ∧ (l'.Sound → l.Timely action)

theorem Tended.turned {events : List Event} {clients' : List ClientId} (tended : Tended l clients)
    (turn : Turn l.server c pc next events) (turned : Turned l.server l'.server c pc next events)
    (registered : Registered l'.server clients') (listener : l'.server.listener = l.server.listener)
    (passed : l'.passed = (if pc = .unlinked then l.pass c else l).passed)
    (admitted : pc = .start → l.server.acceptingClients ≠ 0)
    (detached : pc = .unlinked → l.server.listener ≠ some c) : Tended l' clients' := by
  obtain ⟨running, terminates⟩ := turn.terminates
  have ends : next = .terminated ↔ pc = .unlinked := by
    rw [terminates]
    constructor
    · rintro (isPc | ⟨isPc, closed⟩)
      · exact isPc
      · exact (admitted isPc closed).elim
    · exact Or.inl
  refine ⟨registered, ?_, ?_⟩
  · intro d
    have before := tended.passed d
    rw [passed, turned.pcs d]
    by_cases here : d = c
    · subst here
      rw [turned.was, if_neg (by simpa using running)] at before
      by_cases isPc : pc = .unlinked
      · simp [isPc, ends.mpr isPc, Lifecycle.pass, before]
      · have other : next ≠ .terminated := fun isNext => isPc (ends.mp isNext)
        simp [isPc, other, before]
    · rw [if_neg here, ← before]
      by_cases isPc : pc = .unlinked
      · simp [isPc, Lifecycle.pass, here]
      · simp [isPc]
  · intro d held
    rw [listener] at held
    obtain ⟨e, found, alive⟩ := tended.held d held
    rw [turned.pcs d]
    by_cases here : d = c
    · subst here
      refine ⟨next, if_pos rfl, ?_⟩
      intro isNext
      exact detached (ends.mp isNext) held
    · exact ⟨e, by rw [if_neg here]; exact found, alive⟩

theorem runClient_destroys {served : Bool} (found : s.pcOf c = some .unlinked)
    (run : s.runClient c served = .ok (some s')) : s'.clients c = none := by
  obtain ⟨⟨pc, cancelled⟩, running, isPc⟩ := Option.map_eq_some_iff.mp found
  obtain rfl : pc = .unlinked := isPc
  unfold State.runClient at run
  rw [running] at run
  obtain ⟨middle, destroy, run⟩ := Run.except_bind run
  cases run
  obtain ⟨_, _, destroyed⟩ := Run.except_bind destroy
  cases destroyed
  exact Function.update_self _ _ _

/-- The listener would read a record that is gone. -/
theorem not_sound_of_held (held : l.server.listener = some c) (gone : l.server.clients c = none) : ¬l.Sound := by
  intro sound
  obtain ⟨next, run⟩ := sound.unused (.act .detach)
  simp only [Lifecycle.step, State.step, held, State.getClient, gone] at run
  cases run

theorem Tended.client (served : Bool) (mark : Lifecycle → Lifecycle) (tended : Tended l clients)
    (found : l.server.pcOf c = some pc) (same : ∀ l, (mark l).server = l.server ∧ (mark l).passed = l.passed) :
    ∃ next, l.server.runClient c served = .ok next ∧
      ∀ s', next = some s' →
        let l' := mark { (if pc = .unlinked then l.pass c else l) with server := s' }
        ((pc = .start → l.server.acceptingClients ≠ 0) → (pc = .unlinked → l.server.listener ≠ some c) →
            ∃ clients, Tended l' clients) ∧
          (l'.Sound → (pc = .start → l.server.acceptingClients ≠ 0) ∧ (pc = .unlinked → l.server.listener ≠ some c)) := by
  rcases tended.registered.runClient (c := c) served with blocked | ⟨s', clients', run, listener, registered⟩
  · exact ⟨none, blocked, fun _ impossible => by cases impossible⟩
  refine ⟨some s', run, ?_⟩
  intro s'' isNext
  obtain rfl := Option.some.inj isNext
  obtain ⟨pc', next, events, turn, turned⟩ := runClient_turned run
  obtain rfl : pc' = pc := Option.some.inj (turned.was.symm.trans found)
  intro l'
  have server : l'.server = s' := (same _).1
  have passed : l'.passed = (if pc' = .unlinked then l.pass c else l).passed := (same _).2
  constructor
  · intro admitted detached
    exact ⟨clients', tended.turned turn (server ▸ turned) (server ▸ registered) (server ▸ listener) passed admitted detached⟩
  · intro sound
    constructor
    · intro isPc closed
      have ended := sound.ended c (by
        rw [server, turned.pcs c, if_pos rfl, turn.terminates.2.mpr (.inr ⟨isPc, closed⟩)])
      rw [passed, isPc, if_neg (by decide), tended.passed c, turned.was, isPc] at ended
      cases ended
    · intro isPc held
      refine not_sound_of_held (c := c) ?_ ?_ sound
      · rw [server, listener, held]
      · rw [server]
        exact runClient_destroys (isPc ▸ found) run

theorem Tended.runClient (tended : Tended l clients) (served : Bool) :
    Tends l (.act (.client c served)) (l.runClient c served) := by
  unfold Lifecycle.runClient
  cases found : l.server.pcOf c with
  | none => exact .inl rfl
  | some pc =>
    by_cases waits : l.stuck = true ∧ Lifecycle.locksServer pc = true
    · simp only [waits, and_self, if_true]
      exact .inl rfl
    simp only [if_neg waits]
    have reads : Lifecycle.readStream l.server c pc = .ok () := by
      unfold Lifecycle.readStream
      split
      · rename_i isPc
        rw [getClient_runs (tended.registered.live c pc found (by rw [isPc]; decide))]
        rfl
      · rfl
    obtain ⟨next, run, outcome⟩ := tended.client served id found fun _ => ⟨rfl, rfl⟩
    rw [reads, run]
    cases next with
    | none => exact .inl rfl
    | some s' =>
      obtain ⟨keeps, needs⟩ := outcome s' rfl
      refine .inr ⟨_, rfl, ?_, ?_⟩
      · intro timely
        exact keeps (fun isPc => timely.1 (isPc ▸ found)) (fun isPc => timely.2 (isPc ▸ found))
      · intro sound
        obtain ⟨admitted, detached⟩ := needs sound
        constructor
        · intro isStart
          exact admitted (Option.some.inj (found.symm.trans isStart))
        · intro isUnlinked
          exact detached (Option.some.inj (found.symm.trans isUnlinked))

theorem Tended.abandon (tended : Tended l clients) : Tends l (.abandon c) (l.abandon c) := by
  unfold Lifecycle.abandon
  cases running : l.server.threads c with
  | none => exact .inl rfl
  | some thread =>
    by_cases abandons : thread.pc = .unlinked ∧ thread.cancelled = true ∧ l.exiting c = false ∧ l.stuck = false
    · simp only [if_pos abandons]
      have found : l.server.pcOf c = some .unlinked := by
        rw [State.pcOf, running, ← abandons.1]
        rfl
      obtain ⟨next, run, outcome⟩ := tended.client false (fun l => { l with stuck := true }) found
        fun _ => ⟨rfl, rfl⟩
      rw [run]
      cases next with
      | none => exact .inl rfl
      | some s' =>
        obtain ⟨keeps, needs⟩ := outcome s' rfl
        refine .inr ⟨_, rfl, ?_, ?_⟩
        · intro timely
          exact keeps (fun impossible => by cases impossible) fun _ => timely
        · intro sound
          exact (needs sound).2 rfl
    · simp only [if_neg abandons]
      exact .inl rfl

theorem actOnCancel_point (run : s.actOnCancel c = some s') : ∃ pc, s.pcOf c = some pc ∧ pc.cancellationPoint = true := by
  obtain ⟨thread, running, run⟩ := Option.bind_eq_some_iff.mp run
  by_cases acts : thread.cancelled ∧ thread.pc.cancellationPoint
  · exact ⟨thread.pc, by rw [State.pcOf, running]; rfl, acts.2⟩
  · rw [if_neg acts] at run
    cases run

theorem Tended.cancel (tended : Tended l clients) : Tends l (.act (.cancel c)) (l.step (.act (.cancel c))) := by
  simp only [Lifecycle.step]
  cases run : l.server.actOnCancel c with
  | none => exact .inl rfl
  | some s' =>
    refine .inr ⟨_, rfl, fun _ => ?_, fun _ => trivial⟩
    rcases tended.registered.actOnCancel (c := c) with blocked | ⟨s'', clients', same, listener, registered⟩
    · rw [run] at blocked
      cases blocked
    obtain rfl := Option.some.inj (run.symm.trans (Except.ok.inj same))
    obtain ⟨pc, next, events, turn, turned⟩ := actOnCancel_turned run
    obtain ⟨pc', found, point⟩ := actOnCancel_point run
    obtain rfl : pc' = pc := Option.some.inj (found.symm.trans turned.was)
    refine ⟨clients', tended.turned turn turned registered listener ?_ ?_ ?_⟩
    · have other : pc' ≠ .unlinked := by
        rintro rfl
        cases point
      rw [if_neg other]
    · rintro rfl
      cases point
    · rintro rfl
      cases point

theorem Tended.still {clients' : List ClientId} (tended : Tended l clients) (registered : Registered s' clients')
    (pcs : ∀ c, s'.pcOf c = l.server.pcOf c) (listener : ∀ c, s'.listener = some c → l.server.listener = some c) :
    Tended { l with server := s' } clients' := by
  refine ⟨registered, ?_, ?_⟩
  · intro c
    show l.passed c = if s'.pcOf c = some .terminated then 1 else 0
    rw [pcs c]
    exact tended.passed c
  · intro c held
    show ∃ pc, s'.pcOf c = some pc ∧ pc ≠ .terminated
    rw [pcs c]
    exact tended.held c (listener c held)

theorem Tended.connect (tended : Tended l clients) : Tended { l with server := l.server.clientConstructor } clients := by
  have fresh := tended.registered.bounded l.server.created (le_refl _)
  refine ⟨tended.registered.connect, ?_, ?_⟩
  · intro c
    show l.passed c = if l.server.clientConstructor.pcOf c = some .terminated then 1 else 0
    rw [tended.passed c, pcOf_clientConstructor]
    by_cases new : c = l.server.created
    · simp [new, fresh]
    · simp [new]
  · intro c held
    obtain rfl : l.server.created = c := Option.some.inj held
    exact ⟨.start, by rw [pcOf_clientConstructor, if_pos rfl], by decide⟩

theorem MainTurn.pcs (turn : MainTurn s s') (c : ClientId) : s'.pcOf c = s.pcOf c := by
  cases turn with
  | command _ _ _ pcs => exact pcs c
  | refuse _ same => rw [same]; rfl
  | delete _ same _ => exact same.pcs c
  | leave _ _ same => rw [same]; rfl
  | clean _ same => rw [same]; rfl

theorem Tended.main (tended : Tended l clients) (command : MainCommand) :
    Tends l (.act (.main command)) (l.step (.act (.main command))) := by
  simp only [Lifecycle.step]
  by_cases waits : l.stuck = true ∧ l.server.main = .waiting
  · simp only [if_pos waits]
    exact .inl rfl
  simp only [if_neg waits]
  rcases tended.registered.runMain command with blocked | ⟨s', clients', run, listener, registered⟩
  · rw [blocked]
    exact .inl rfl
  · rw [run]
    refine .inr ⟨_, rfl, fun _ => ?_, fun _ => trivial⟩
    refine ⟨clients', tended.still registered (runMain_turned run).pcs ?_⟩
    intro c held
    rw [← listener]
    exact held

theorem Tended.step (tended : Tended l clients) (action : LifeAction) : Tends l action (l.step action) := by
  cases action with
  | abandon c => exact tended.abandon
  | act action =>
    cases action with
    | connect =>
      simp only [Lifecycle.step, State.step]
      by_cases free : l.server.listener = none
      · rw [if_pos free]
        exact .inr ⟨_, rfl, fun _ => ⟨clients, tended.connect⟩, fun _ => trivial⟩
      · rw [if_neg free]
        exact .inl rfl
    | detach =>
      simp only [Lifecycle.step, State.step]
      cases held : l.server.listener with
      | none => exact .inl rfl
      | some c =>
        simp only [getClient_runs (tended.held_live held)]
        refine .inr ⟨_, rfl, fun _ => ⟨clients, tended.still ?_ (fun _ => rfl) fun _ impossible => by cases impossible⟩, fun _ => trivial⟩
        exact tended.registered.same rfl (fun _ => rfl) rfl rfl rfl
    | client c served => exact tended.runClient served
    | cancel c => exact tended.cancel
    | sigint =>
      simp only [Lifecycle.step, State.step]
      by_cases commands : l.server.main = .commands
      · rw [if_pos commands]
        obtain ⟨s', run, listener, registered, _⟩ := tended.registered.deleteAll
        have same := cancelFrom_course _ _ _ _ run
        rw [run]
        refine .inr ⟨_, rfl, fun _ => ⟨clients, tended.still registered same.pcs ?_⟩, fun _ => trivial⟩
        intro c held
        rw [← listener]
        exact held
      · rw [if_neg commands]
        exact .inl rfl
    | main command => exact tended.main command

/-! ### Runs -/

theorem Tended.sound (tended : Tended l clients) : l.Sound := by
  refine ⟨?_, ?_, ?_⟩
  · intro c
    rw [tended.passed c]
    split <;> omega
  · intro c ended
    rw [tended.passed c, if_pos ended]
  · intro action
    rcases tended.step action with blocked | ⟨l', step, _⟩
    · exact ⟨none, blocked⟩
    · exact ⟨some l', step⟩

/-- As long as every step is timely the records are handled soundly, and the first step that is not
timely ends that. -/
theorem reachable_sound (reachable : Lifecycle.Reachable Lifecycle.Timely l) :
    l.Sound ∧ ∀ action l', l.step action = .ok (some l') → (l'.Sound ↔ l.Timely action) := by
  have invariant : ∃ clients, Tended l clients := by
    apply reachable.invariant (P := fun l => ∃ clients, Tended l clients) ⟨[], tended_initial⟩
    rintro l l' action ⟨clients, tended⟩ timely run
    rcases tended.step action with blocked | ⟨l'', step, keeps, _⟩
    · cases blocked.symm.trans run
    · obtain rfl := Option.some.inj (Except.ok.inj (step.symm.trans run))
      exact keeps timely
  obtain ⟨clients, tended⟩ := invariant
  refine ⟨tended.sound, ?_⟩
  intro action l' run
  rcases tended.step action with blocked | ⟨l'', step, keeps, needs⟩
  · cases blocked.symm.trans run
  · obtain rfl := Option.some.inj (Except.ok.inj (step.symm.trans run))
    refine ⟨needs, ?_⟩
    intro timely
    obtain ⟨_, kept⟩ := keeps timely
    exact kept.sound

/-- A client connects, is detached, served, and disconnects. -/
def oneVisit : List LifeAction :=
  [.act .connect, .act .detach] ++ List.replicate 3 (.act (.client 0 true)) ++ List.replicate 3 (.act (.client 0 false))

theorem sound_oneVisit : ∃ l, Transition.follow Lifecycle.step Lifecycle.Timely oneVisit .initial = some l ∧
    l.passed 0 = 1 ∧ l.Sound := by
  have run : (Transition.follow Lifecycle.step Lifecycle.Timely oneVisit .initial).map (fun l => l.passed 0) = some 1 := by
    decide +kernel
  obtain ⟨l, found, once⟩ := Option.map_eq_some_iff.mp run
  exact ⟨l, found, once, (reachable_sound (Transition.follow_reachable .initial found)).1⟩

/-- The thread of a client that connected before the end of input tests `accepting_clients` after it. -/
def refusedVisit : List LifeAction :=
  [.act .connect, .act .detach, .act (.main .eof), .act (.main .eof), .act (.client 0 true)]

/-- The thread runs to its end before the listener comes to `pthread_detach`. -/
def earlyVisit : List LifeAction :=
  [.act .connect] ++ List.replicate 3 (.act (.client 0 true)) ++ List.replicate 3 (.act (.client 0 false))

theorem record_leaked_and_used : (∃ l, Lifecycle.Reachable (fun _ _ => True) l ∧
      l.server.pcOf 0 = some .terminated ∧ l.passed 0 = 0) ∧
    ∃ l, Lifecycle.Reachable (fun _ _ => True) l ∧ l.passed 0 = 1 ∧
      l.step (.act .detach) = .error (.destroyed 0) := by
  constructor
  · have run : (Transition.follow Lifecycle.step (fun _ _ => True) refusedVisit .initial).map
        (fun l => (l.server.pcOf 0, l.passed 0)) = some (some .terminated, 0) := by decide +kernel
    obtain ⟨l, found, view⟩ := Option.map_eq_some_iff.mp run
    obtain ⟨ended, never⟩ := Prod.mk.inj view
    exact ⟨l, Transition.follow_reachable .initial found, ended, never⟩
  · have run : (Transition.follow Lifecycle.step (fun _ _ => True) earlyVisit .initial).map
        (fun l => (l.passed 0, l.server.listener, l.server.clients 0)) = some (1, some 0, none) := by decide +kernel
    obtain ⟨l, found, view⟩ := Option.map_eq_some_iff.mp run
    obtain ⟨once, view⟩ := Prod.mk.inj view
    obtain ⟨held, gone⟩ := Prod.mk.inj view
    refine ⟨l, Transition.follow_reachable .initial found, once, ?_⟩
    simp only [Lifecycle.step, State.step, held, State.getClient, gone]
    rfl

end Cs1330.Server
