import Mathlib.Algebra.Order.BigOperators.Group.Finset
import Cs1330.Server.Lifecycle

/-!
# Whether the server can still finish

`main` comes to `db_cleanup` when no client thread is counted. A thread that is counted can be
brought to its end by its client or by the cancellation that `delete_all` asked for, unless it
stands at `client_control_wait` of a stopped server and `delete_all` came too early for it. Then
nobody wakes it: the commands are over and the signal handler is gone. The other way to wait for
ever is a `server_mutex` that a cancelled thread left locked.
-/

namespace Cs1330.Server

variable {l l' : Lifecycle} {s s' : State} {c d : ClientId} {thread : Thread} {pc next : Pc} {clients : List ClientId}

namespace State

/-- The thread waits for `go`, or is about to, and was not asked to cancel. -/
def Waits (s : State) (c : ClientId) : Prop :=
  ∃ thread, s.threads c = some thread ∧ thread.cancelled = false ∧ (thread.pc = .ready ∨ thread.pc = .blocked)

/-- `delete_all` is over, and a client that it missed waits for `go`. -/
def Stranded (s : State) : Prop := s.main = .waiting ∧ s.stopped = true ∧ ∃ c, s.Waits c

end State

namespace Lifecycle

/-- `main` has not come past its loop on `num_client_threads` and will not. -/
def Hangs (l : Lifecycle) : Prop :=
  l.server.main ≠ .cleaning ∧ l.server.main ≠ .cleaned ∧ (l.stuck = true ∨ l.server.Stranded)

def Finishes (l : Lifecycle) : Prop := ∃ l', Transition.Leads step l l' ∧ l'.server.main = .cleaned

end Lifecycle

/-! ### Where a step takes a thread -/

/-- The sections of a client thread touch the records and the head of the list. -/
def Relinks (s s' : State) : Prop :=
  ∃ clients head, s' = { s with clients := clients, threadListHead := head }

theorem Relinks.trans {s'' : State} (first : Relinks s s') (second : Relinks s' s'') : Relinks s s'' := by
  obtain ⟨_, _, rfl⟩ := first
  obtain ⟨clients, head, rfl⟩ := second
  exact ⟨clients, head, rfl⟩

theorem setClient_relinks {change : Client → Client} (run : s.setClient c change = .ok s') : Relinks s s' := by
  obtain ⟨client, _, run⟩ := Run.except_bind run
  cases run
  exact ⟨_, _, rfl⟩

theorem insertClient_relinks (run : s.insertClient c = .ok s') : Relinks s s' := by
  obtain ⟨s₁, first, run⟩ := Run.except_bind run
  have linked := setClient_relinks first
  cases head : s.threadListHead with
  | none =>
    rw [head] at run
    cases run
    exact linked.trans ⟨_, _, rfl⟩
  | some old =>
    rw [head] at run
    obtain ⟨s₂, second, run⟩ := Run.except_bind run
    cases run
    exact linked.trans ((setClient_relinks second).trans ⟨_, _, rfl⟩)

theorem unlinkPrev_relinks (run : s.unlinkPrev c = .ok s') : Relinks s s' := by
  obtain ⟨client, _, run⟩ := Run.except_bind run
  cases prev : client.prev with
  | none =>
    rw [prev] at run
    cases run
    exact ⟨_, _, rfl⟩
  | some other =>
    rw [prev] at run
    exact setClient_relinks run

theorem unlinkClient_relinks (run : s.unlinkClient c = .ok s') : Relinks s s' := by
  obtain ⟨client, _, run⟩ := Run.except_bind run
  cases following : client.next with
  | none =>
    rw [following] at run
    exact unlinkPrev_relinks run
  | some other =>
    rw [following] at run
    obtain ⟨s₁, first, run⟩ := Run.except_bind run
    exact (setClient_relinks first).trans (unlinkPrev_relinks run)

/-- One thread goes to `next`; the others stay, with what decides how far they come. -/
structure Moves (s s' : State) (c : ClientId) (next : Pc) : Prop where
  threads : ∀ d, s'.threads d = if d = c then (s.threads c).map fun thread => { thread with pc := next } else s.threads d
  stopped : s'.stopped = s.stopped
  main : s'.main = s.main
  created : s'.created = s.created

theorem goto_moves {middle : State} (running : s.threads c = some thread) (threads : middle.threads = s.threads)
    (stopped : middle.stopped = s.stopped) (main : middle.main = s.main) (created : middle.created = s.created) :
    Moves s (middle.goto c thread next) c next := by
  refine ⟨fun d => ?_, stopped, main, created⟩
  by_cases here : d = c
  · subst here
    simp [State.goto, running]
  · simp [State.goto, here, threads]

theorem Relinks.moves {middle : State} (relinks : Relinks s middle) (running : s.threads c = some thread) :
    Moves s (middle.goto c thread next) c next := by
  obtain ⟨_, _, rfl⟩ := relinks
  exact goto_moves running rfl rfl rfl rfl

/-- The place that the next section of a thread takes it to. -/
def State.following (s : State) (served : Bool) : Pc → Pc
  | .start => if s.acceptingClients = 0 then .terminated else .admitted
  | .admitted => .counted
  | .counted => .serving
  | .serving => if served then .ready else .leaving
  | .ready | .blocked => if s.stopped then .blocked else .calling
  | .calling => .interpreting
  | .interpreting => .serving
  | .leaving => .unlinked
  | .unlinked | .terminated => .terminated

theorem clientControlWait_moves (running : s.threads c = some thread) :
    Moves s (s.clientControlWait c thread) c (if s.stopped then .blocked else .calling) := by
  unfold State.clientControlWait
  cases s.stopped with
  | true => exact goto_moves running rfl rfl rfl rfl
  | false => exact goto_moves running rfl rfl rfl rfl

theorem runClient_moves {served : Bool} {outcome : Option State} (run : s.runClient c served = .ok outcome)
    (running : s.threads c = some thread) (alive : thread.pc ≠ .terminated) :
    ∃ s', outcome = some s' ∧ Moves s s' c (s.following served thread.pc) := by
  obtain ⟨pc, cancelled⟩ := thread
  unfold State.runClient at run
  rw [running] at run
  cases pc with
  | start =>
    cases run
    exact ⟨_, rfl, goto_moves running rfl rfl rfl rfl⟩
  | admitted =>
    cases run
    exact ⟨_, rfl, goto_moves running rfl rfl rfl rfl⟩
  | counted =>
    obtain ⟨middle, insert, run⟩ := Run.except_bind run
    cases run
    exact ⟨_, rfl, (insertClient_relinks insert).moves running⟩
  | serving =>
    cases run
    exact ⟨_, rfl, goto_moves running rfl rfl rfl rfl⟩
  | ready =>
    cases run
    exact ⟨_, rfl, clientControlWait_moves running⟩
  | blocked =>
    cases run
    exact ⟨_, rfl, clientControlWait_moves running⟩
  | calling =>
    cases run
    exact ⟨_, rfl, goto_moves running rfl rfl rfl rfl⟩
  | interpreting =>
    cases run
    exact ⟨_, rfl, goto_moves running rfl rfl rfl rfl⟩
  | leaving =>
    obtain ⟨middle, unlink, run⟩ := Run.except_bind run
    cases run
    exact ⟨_, rfl, (unlinkClient_relinks unlink).moves running⟩
  | unlinked =>
    obtain ⟨middle, destroy, run⟩ := Run.except_bind run
    cases run
    obtain ⟨client, _, destroy⟩ := Run.except_bind destroy
    cases destroy
    exact ⟨_, rfl, goto_moves running rfl rfl rfl rfl⟩
  | terminated => exact absurd rfl alive

/-- A thread that takes a step was running. -/
theorem runClient_moved {served : Bool} (run : s.runClient c served = .ok (some s')) :
    ∃ thread, s.threads c = some thread ∧ Moves s s' c (s.following served thread.pc) := by
  obtain ⟨pc, next, events, turn, turned⟩ := runClient_turned run
  obtain ⟨thread, running, rfl⟩ := Option.map_eq_some_iff.mp turned.was
  obtain ⟨s'', same, moves⟩ := runClient_moves run running turn.terminates.1
  obtain rfl := Option.some.inj same
  exact ⟨thread, running, moves⟩

theorem actOnCancel_iff : s.actOnCancel c = some s' ↔
    ∃ thread, s.threads c = some thread ∧ thread.cancelled = true ∧ thread.pc.cancellationPoint = true ∧
      s' = s.goto c thread .leaving := by
  constructor
  · intro run
    obtain ⟨thread, running, run⟩ := Option.bind_eq_some_iff.mp run
    by_cases acts : thread.cancelled ∧ thread.pc.cancellationPoint
    · rw [if_pos acts] at run
      exact ⟨thread, running, acts.1, acts.2, (Option.some.inj run).symm⟩
    · rw [if_neg acts] at run
      cases run
  · rintro ⟨thread, running, asked, point, rfl⟩
    unfold State.actOnCancel
    rw [running]
    exact if_pos ⟨asked, point⟩

/-! ### What no step undoes -/

theorem step_anyStep {action : Action} (run : s.step action = .ok (some s')) : s.anyStep action = .ok (some s') := by
  cases action with
  | connect =>
    simp only [State.step] at run
    split at run
    · exact run
    · cases run
  | detach =>
    simp only [State.step] at run
    split at run
    · cases run
    · obtain ⟨client, _, run⟩ := Run.except_bind run
      exact run
  | client c served => exact run
  | cancel c => exact run
  | sigint =>
    simp only [State.step] at run
    split at run
    · exact run
    · cases run
  | main command => exact run

theorem Registered.kept (registered : Registered s clients) (action : Action) (run : s.step action = .ok (some s')) :
    ∃ clients', Registered s' clients' := by
  obtain ⟨_, blocked | ⟨t, clients', step, _, kept⟩⟩ := registered.anyStep action
  · cases blocked.symm.trans (step_anyStep run)
  · obtain rfl := Option.some.inj (Except.ok.inj (step.symm.trans (step_anyStep run)))
    exact ⟨clients', kept⟩

/-- A step of the server, also where a thread is cancelled in `client_destructor`. While
`server_mutex` is left locked `main` cannot leave its loop. -/
theorem Lifecycle.step_server {action : LifeAction} (run : l.step action = .ok (some l')) :
    ∃ act, l.server.step act = .ok (some l'.server) ∧
      (l.stuck = true → l'.stuck = true ∧ (l.server.main = .waiting → ∀ command, act ≠ .main command)) := by
  cases action with
  | act action =>
    cases action with
    | client c served =>
      replace run : l.runClient c served = .ok (some l') := run
      unfold Lifecycle.runClient at run
      split at run
      · cases run
      · split at run
        · cases run
        · obtain ⟨_, _, run⟩ := Run.except_bind run
          obtain ⟨next, taken, run⟩ := Run.except_bind run
          obtain ⟨s', rfl, rfl⟩ := Option.map_eq_some_iff.mp (Except.ok.inj run)
          refine ⟨.client c served, taken, fun stuck => ⟨?_, fun _ _ => by simp⟩⟩
          show (if _ then l.pass c else l).stuck = true
          split <;> exact stuck
    | cancel c =>
      obtain ⟨s', taken, rfl⟩ := Option.map_eq_some_iff.mp (Except.ok.inj run)
      exact ⟨.cancel c, congrArg Except.ok taken, fun stuck => ⟨stuck, fun _ _ => by simp⟩⟩
    | main command =>
      simp only [Lifecycle.step] at run
      split at run
      · cases run
      · rename_i free
        obtain ⟨next, taken, run⟩ := Run.except_bind run
        obtain ⟨s', rfl, rfl⟩ := Option.map_eq_some_iff.mp (Except.ok.inj run)
        exact ⟨.main command, taken, fun stuck => ⟨stuck, fun waits => absurd ⟨stuck, waits⟩ free⟩⟩
    | connect | detach | sigint =>
      obtain ⟨next, taken, run⟩ := Run.except_bind run
      obtain ⟨s', rfl, rfl⟩ := Option.map_eq_some_iff.mp (Except.ok.inj run)
      exact ⟨_, taken, fun stuck => ⟨stuck, fun _ _ => by simp⟩⟩
  | abandon c =>
    replace run : l.abandon c = .ok (some l') := run
    unfold Lifecycle.abandon at run
    split at run
    · cases run
    · split at run
      · obtain ⟨next, taken, run⟩ := Run.except_bind run
        obtain ⟨s', rfl, rfl⟩ := Option.map_eq_some_iff.mp (Except.ok.inj run)
        exact ⟨.client c false, taken, fun _ => ⟨rfl, fun _ _ => by simp⟩⟩
      · cases run

/-- Only `main` moves `main`. -/
theorem step_main {action : Action} (run : s.step action = .ok (some s')) (other : ∀ command, action ≠ .main command) :
    s'.main = s.main := by
  cases action with
  | connect =>
    simp only [State.step] at run
    split at run
    · cases run
      rfl
    · cases run
  | detach =>
    simp only [State.step] at run
    split at run
    · cases run
    · obtain ⟨client, _, run⟩ := Run.except_bind run
      cases run
      rfl
  | client c served =>
    obtain ⟨_, _, moves⟩ := runClient_moved run
    exact moves.main
  | cancel c =>
    obtain ⟨thread, _, _, _, rfl⟩ := actOnCancel_iff.mp (Except.ok.inj run)
    rfl
  | sigint =>
    simp only [State.step] at run
    split at run
    · obtain ⟨middle, delete, run⟩ := Run.except_bind run
      cases run
      exact (cancelFrom_course _ _ _ _ delete).main
    · cases run
  | main command => exact absurd rfl (other command)

theorem State.Waits.counted (waits : s.Waits c) : ∃ pc, s.pcOf c = some pc ∧ pc.counts = true := by
  obtain ⟨thread, running, _, isPc⟩ := waits
  refine ⟨thread.pc, by rw [State.pcOf, running]; rfl, ?_⟩
  rcases isPc with isPc | isPc <;> rw [isPc] <;> rfl

theorem State.Waits.moved {served : Bool} (waits : s.Waits c) (stopped : s.stopped = true)
    (run : s.runClient d served = .ok (some s')) : s'.Waits c := by
  obtain ⟨thread, running, unasked, isPc⟩ := waits
  obtain ⟨mover, found, moves⟩ := runClient_moved run
  by_cases here : c = d
  · subst here
    obtain rfl : mover = thread := Option.some.inj (found.symm.trans running)
    have goes : s.following served mover.pc = .blocked := by
      rcases isPc with isPc | isPc <;> rw [isPc] <;> exact if_pos stopped
    refine ⟨{ mover with pc := .blocked }, ?_, unasked, .inr rfl⟩
    rw [moves.threads c, if_pos rfl, running, goes]
    rfl
  · exact ⟨thread, by rw [moves.threads c, if_neg here]; exact running, unasked, isPc⟩

theorem State.Stranded.step {action : Action} (stranded : s.Stranded) (registered : Registered s clients)
    (run : s.step action = .ok (some s')) : s'.Stranded := by
  obtain ⟨isMain, stopped, c, waits⟩ := stranded
  obtain ⟨thread, running, unasked, isPc⟩ := waits
  cases action with
  | connect =>
    simp only [State.step] at run
    split at run
    · cases run
      have different : c ≠ s.created := by
        rintro rfl
        have fresh := registered.bounded s.created (le_refl _)
        rw [State.pcOf, running] at fresh
        cases fresh
      refine ⟨isMain, stopped, c, thread, ?_, unasked, isPc⟩
      simpa [State.clientConstructor, different] using running
    · cases run
  | detach =>
    simp only [State.step] at run
    split at run
    · cases run
    · obtain ⟨client, _, run⟩ := Run.except_bind run
      cases run
      exact ⟨isMain, stopped, c, thread, running, unasked, isPc⟩
  | client d served =>
    obtain ⟨_, _, moves⟩ := runClient_moved run
    exact ⟨moves.main.trans isMain, moves.stopped.trans stopped, c,
      State.Waits.moved ⟨thread, running, unasked, isPc⟩ stopped run⟩
  | cancel d =>
    obtain ⟨other, found, asked, _, rfl⟩ := actOnCancel_iff.mp (Except.ok.inj run)
    have different : c ≠ d := by
      rintro rfl
      obtain rfl := Option.some.inj (found.symm.trans running)
      rw [unasked] at asked
      cases asked
    refine ⟨isMain, stopped, c, thread, ?_, unasked, isPc⟩
    simpa [State.goto, different] using running
  | sigint =>
    simp only [State.step, isMain] at run
    cases run
  | main command =>
    -- The client that waits is counted.
    obtain ⟨pc, found, counts⟩ := State.Waits.counted ⟨thread, running, unasked, isPc⟩
    have busy : s.numClientThreads > 0 := by
      by_contra down
      rw [registered.tallied.none (by omega) found] at counts
      cases counts
    simp only [State.step, State.runMain, isMain, if_pos busy] at run
    cases run

theorem Lifecycle.Hangs.step {action : LifeAction} (hangs : l.Hangs) (registered : Registered l.server clients)
    (run : l.step action = .ok (some l')) : l'.Hangs := by
  obtain ⟨notCleaning, notCleaned, reason⟩ := hangs
  obtain ⟨act, taken, keepsLock⟩ := Lifecycle.step_server run
  rcases reason with stuck | stranded
  · obtain ⟨stuck', waits⟩ := keepsLock stuck
    have early : l'.server.main ≠ .cleaning ∧ l'.server.main ≠ .cleaned := by
      by_cases moves : ∃ command, act = .main command
      · obtain ⟨command, rfl⟩ := moves
        cases runMain_turned taken with
        | command _ isNext => rcases isNext with isNext | isNext <;> simp [isNext]
        | refuse _ same => simp [same]
        | delete _ _ isNext => simp [isNext]
        | leave isMain _ _ => exact absurd rfl (waits isMain command)
        | clean isMain _ => exact absurd isMain notCleaning
      · rw [step_main taken fun command same => moves ⟨command, same⟩]
        exact ⟨notCleaning, notCleaned⟩
    exact ⟨early.1, early.2, .inl stuck'⟩
  · have kept := stranded.step registered taken
    exact ⟨by simp [kept.1], by simp [kept.1], .inr kept⟩

/-! ### Bringing the threads to their end -/

/-- How many sections a counted thread still has to take, if its client sends nothing more. -/
def Pc.left : Pc → Nat
  | .start | .admitted | .terminated => 0
  | .unlinked => 1
  | .leaving => 2
  | .serving => 3
  | .counted | .interpreting => 4
  | .calling => 5
  | .blocked => 6
  | .ready => 7

def MainPc.left : MainPc → Nat
  | .commands => 5
  | .closing => 4
  | .refusing => 3
  | .waiting => 2
  | .cleaning => 1
  | .cleaned => 0

def State.left (s : State) : Nat := s.main.left + ∑ c ∈ Finset.range s.created, (s.pcOf c).elim 0 Pc.left

theorem Moves.left (moves : Moves s s' c next) (registered : Registered s clients) (found : s.pcOf c = some pc)
    (less : next.left < pc.left) : s'.left < s.left := by
  have known : c < s.created := by
    by_contra beyond
    rw [registered.bounded c (Nat.le_of_not_lt beyond)] at found
    cases found
  have pcs : ∀ d, s'.pcOf d = if d = c then some next else s.pcOf d := by
    intro d
    by_cases here : d = c
    · subst here
      obtain ⟨thread, running, _⟩ := Option.map_eq_some_iff.mp found
      simp [State.pcOf, moves.threads d, running]
    · simp [State.pcOf, moves.threads d, here]
  have summed : ∑ d ∈ Finset.range s'.created, (s'.pcOf d).elim 0 Pc.left <
      ∑ d ∈ Finset.range s.created, (s.pcOf d).elim 0 Pc.left := by
    rw [moves.created]
    apply Finset.sum_lt_sum
    · intro d _
      by_cases here : d = c
      · subst here
        rw [pcs d, if_pos rfl, found]
        exact le_of_lt less
      · rw [pcs d, if_neg here]
    · refine ⟨c, Finset.mem_range.mpr known, ?_⟩
      rw [pcs c, if_pos rfl, found]
      exact less
  have same := moves.main
  unfold State.left
  rw [same]
  omega

theorem State.Waits.still (waits : s'.Waits d) (moves : Moves s s' c next) (elsewhere : next ≠ .ready ∧ next ≠ .blocked) :
    s.Waits d := by
  obtain ⟨thread, running, unasked, isPc⟩ := waits
  rw [moves.threads d] at running
  by_cases here : d = c
  · rw [if_pos here] at running
    obtain ⟨before, _, rfl⟩ := Option.map_eq_some_iff.mp running
    rcases isPc with isPc | isPc
    · exact absurd isPc elsewhere.1
    · exact absurd isPc elsewhere.2
  · rw [if_neg here] at running
    exact ⟨thread, running, unasked, isPc⟩

/-- Nothing keeps `main` in its loop but threads that can still end. -/
structure Drains (l : Lifecycle) : Prop where
  registered : ∃ clients, Registered l.server clients
  unlocked : l.stuck = false
  awake : ¬l.server.Stranded

theorem Drains.client (drains : Drains l) (served : Bool) (running : l.server.threads c = some thread)
    (less : (l.server.following served thread.pc).left < thread.pc.left)
    (awake : ∀ d s', Moves l.server s' c (l.server.following served thread.pc) → s'.stopped = true → s'.Waits d →
      l.server.Waits d) :
    ∃ action l', l.step action = .ok (some l') ∧ Drains l' ∧ l'.server.left < l.server.left := by
  obtain ⟨clients, registered⟩ := drains.registered
  have found : l.server.pcOf c = some thread.pc := by
    rw [State.pcOf, running]
    rfl
  have alive : thread.pc ≠ .terminated := by
    intro isPc
    rw [isPc] at less
    cases less
  have reads : Lifecycle.readStream l.server c thread.pc = .ok () := by
    unfold Lifecycle.readStream
    split
    · rw [getClient_runs (registered.live c _ found alive)]
      rfl
    · rfl
  have free : ¬(l.stuck = true ∧ Lifecycle.locksServer thread.pc = true) := by simp [drains.unlocked]
  obtain ⟨outcome, run⟩ : ∃ outcome, l.server.runClient c served = .ok outcome := by
    rcases registered.runClient (c := c) served with blocked | ⟨s', _, run, _⟩
    · exact ⟨_, blocked⟩
    · exact ⟨_, run⟩
  obtain ⟨s', rfl, moves⟩ := runClient_moves run running alive
  obtain ⟨clients', registered'⟩ := registered.kept (.client c served) run
  let after : Lifecycle := { (if thread.pc = .unlinked then l.pass c else l) with server := s' }
  have unlocked : after.stuck = false := by
    show (if _ then l.pass c else l).stuck = false
    split <;> exact drains.unlocked
  refine ⟨.act (.client c served), after, ?_, ⟨⟨clients', registered'⟩, unlocked, ?_⟩,
    moves.left registered found less⟩
  · show l.runClient c served = _
    unfold Lifecycle.runClient
    simp only [found, if_neg free, reads, run]
    rfl
  · rintro ⟨isMain, stopped, d, waits⟩
    exact drains.awake ⟨moves.main.symm.trans isMain, moves.stopped.symm.trans stopped, d, awake d s' moves stopped waits⟩

theorem Drains.cancel (drains : Drains l) (running : l.server.threads c = some thread) (asked : thread.cancelled = true)
    (isPc : thread.pc = .blocked) :
    ∃ action l', l.step action = .ok (some l') ∧ Drains l' ∧ l'.server.left < l.server.left := by
  obtain ⟨clients, registered⟩ := drains.registered
  have found : l.server.pcOf c = some thread.pc := by
    rw [State.pcOf, running]
    rfl
  have run : l.server.actOnCancel c = some (l.server.goto c thread .leaving) :=
    actOnCancel_iff.mpr ⟨thread, running, asked, by rw [isPc]; rfl, rfl⟩
  have moves : Moves l.server (l.server.goto c thread .leaving) c .leaving := goto_moves running rfl rfl rfl rfl
  obtain ⟨clients', registered'⟩ := registered.kept (.cancel c) (congrArg Except.ok run)
  refine ⟨.act (.cancel c),
    { l with server := l.server.goto c thread .leaving, exiting := Function.update l.exiting c true }, ?_,
    ⟨⟨clients', registered'⟩, drains.unlocked, ?_⟩, moves.left registered found (by rw [isPc]; decide)⟩
  · simp only [Lifecycle.step, run]
    rfl
  · rintro ⟨isMain, stopped, d, waits⟩
    exact drains.awake ⟨isMain, stopped, d, waits.still moves (by decide)⟩

theorem Drains.counted (drains : Drains l) (isMain : l.server.main = .waiting) (running : l.server.threads c = some thread)
    (counts : thread.pc.counts = true) :
    ∃ action l', l.step action = .ok (some l') ∧ Drains l' ∧ l'.server.left < l.server.left := by
  cases isPc : thread.pc with
  | start | admitted | terminated =>
    rw [isPc] at counts
    cases counts
  | ready =>
    cases stopped : l.server.stopped with
    | true =>
      have goes : l.server.following false thread.pc = .blocked := by
        rw [isPc]
        exact if_pos stopped
      refine drains.client false running (by rw [goes, isPc]; decide) fun d s' moves _ waits => ?_
      -- The client that waits before the condition is the one that waits in it.
      obtain ⟨after, found, unasked, isPc'⟩ := waits
      rw [moves.threads d] at found
      by_cases here : d = c
      · subst here
        rw [if_pos rfl, running] at found
        obtain rfl := Option.some.inj found
        exact ⟨thread, running, unasked, .inl isPc⟩
      · rw [if_neg here] at found
        exact ⟨after, found, unasked, isPc'⟩
    | false =>
      have goes : l.server.following false thread.pc = .calling := by
        rw [isPc]
        exact if_neg (by simp [stopped])
      exact drains.client false running (by rw [goes, isPc]; decide) fun d s' moves _ waits =>
        waits.still (goes ▸ moves) (by decide)
  | blocked =>
    cases stopped : l.server.stopped with
    | true =>
      apply drains.cancel running _ isPc
      by_contra unasked
      exact drains.awake ⟨isMain, stopped, c, thread, running, by simpa using unasked, .inr isPc⟩
    | false =>
      have goes : l.server.following false thread.pc = .calling := by
        rw [isPc]
        exact if_neg (by simp [stopped])
      exact drains.client false running (by rw [goes, isPc]; decide) fun d s' moves _ waits =>
        waits.still (goes ▸ moves) (by decide)
  | counted | serving | calling | interpreting | leaving | unlinked =>
    refine drains.client false running ?_ fun d s' moves _ waits => waits.still moves ?_
    · simp [isPc, State.following, Pc.left]
    · simp [isPc, State.following]

theorem Lifecycle.step_eof (free : ¬(l.stuck = true ∧ l.server.main = .waiting))
    (run : l.server.runMain .eof = .ok (some s')) : l.step (.act (.main .eof)) = .ok (some { l with server := s' }) := by
  simp only [Lifecycle.step, if_neg free, run]
  rfl

/-- `delete_all` leaves nobody waiting for `go`. -/
theorem Registered.deleteAll_wakes (registered : Registered s clients) :
    ∃ s', s.deleteAll = .ok s' ∧ Registered s' clients ∧ SameCourse s s' ∧ ∀ c, ¬s'.Waits c := by
  obtain ⟨s', run, _, registered', threads⟩ := registered.deleteAll
  refine ⟨s', run, registered', cancelFrom_course _ _ _ _ run, ?_⟩
  rintro c ⟨thread, found, unasked, isPc⟩
  rw [threads c] at found
  by_cases listed : c ∈ clients
  · rw [if_pos listed] at found
    obtain ⟨before, _, rfl⟩ := Option.map_eq_some_iff.mp found
    cases unasked
  · rw [if_neg listed] at found
    apply listed
    refine (registered.members c).mpr ⟨thread.pc, by rw [State.pcOf, found]; rfl, ?_⟩
    rcases isPc with isPc | isPc <;> rw [isPc] <;> rfl

theorem left_of_main (created : s'.created = s.created) (pcs : ∀ c, s'.pcOf c = s.pcOf c)
    (less : s'.main.left < s.main.left) : s'.left < s.left := by
  unfold State.left
  rw [created]
  simp only [pcs]
  omega

theorem Drains.main (drains : Drains l) (s' : State) (run : l.server.runMain .eof = .ok (some s'))
    (created : s'.created = l.server.created) (less : s'.main.left < l.server.main.left) (awake : ¬s'.Stranded) :
    ∃ action l', l.step action = .ok (some l') ∧ Drains l' ∧ l'.server.left < l.server.left := by
  obtain ⟨clients, registered⟩ := drains.registered
  exact ⟨_, _, Lifecycle.step_eof (by simp [drains.unlocked]) run,
    ⟨registered.kept (.main .eof) run, drains.unlocked, awake⟩, left_of_main created (runMain_turned run).pcs less⟩

theorem Drains.progress (drains : Drains l) (unfinished : l.server.main ≠ .cleaned) :
    ∃ action l', l.step action = .ok (some l') ∧ Drains l' ∧ l'.server.left < l.server.left := by
  obtain ⟨clients, registered⟩ := drains.registered
  cases isMain : l.server.main with
  | commands =>
    refine drains.main { l.server with main := .closing } ?_ rfl (by simp [isMain, MainPc.left])
      fun stranded => by cases stranded.1
    simp only [State.runMain, isMain]
    rfl
  | closing =>
    refine drains.main { l.server with acceptingClients := 0, main := .refusing } ?_ rfl (by simp [isMain, MainPc.left])
      fun stranded => by cases stranded.1
    simp only [State.runMain, isMain]
    rfl
  | refusing =>
    obtain ⟨s', run, _, same, nobody⟩ := registered.deleteAll_wakes
    refine drains.main { s' with main := .waiting } ?_ same.created (by simp [isMain, MainPc.left]) ?_
    · simp only [State.runMain, isMain, run]
      rfl
    · rintro ⟨_, _, c, waits⟩
      exact nobody c waits
  | waiting =>
    by_cases busy : l.server.numClientThreads > 0
    · obtain ⟨members, isMember, count⟩ := registered.tallied
      obtain ⟨c, member⟩ := Finset.card_pos.mp (by omega : 0 < members.card)
      obtain ⟨pc, found, counts⟩ := (isMember c).mp member
      obtain ⟨thread, running, rfl⟩ := Option.map_eq_some_iff.mp found
      exact drains.counted isMain running counts
    · refine drains.main { l.server with main := .cleaning } ?_ rfl (by simp [isMain, MainPc.left])
        fun stranded => by cases stranded.1
      simp only [State.runMain, isMain, if_neg busy]
      rfl
  | cleaning =>
    refine drains.main ({ l.server with main := .cleaned }.note .cleanup) ?_ rfl (by simp [isMain, State.note, MainPc.left])
      fun stranded => by cases stranded.1
    simp only [State.runMain, isMain]
    rfl
  | cleaned => exact absurd isMain unfinished

/-! ### Runs -/

theorem reachable_registered (reachable : Lifecycle.Reachable (fun _ _ => True) l) :
    ∃ clients, Registered l.server clients := by
  apply reachable.invariant (P := fun l => ∃ clients, Registered l.server clients) ⟨[], registered_initial⟩
  rintro l l' action ⟨clients, registered⟩ _ run
  obtain ⟨act, taken, _⟩ := Lifecycle.step_server run
  exact registered.kept act taken

/-- From every state that a run can come to, `main` can still come to `db_cleanup` unless it hangs. -/
theorem finishes_iff (reachable : Lifecycle.Reachable (fun _ _ => True) l) : l.Finishes ↔ ¬l.Hangs := by
  obtain ⟨clients, registered⟩ := reachable_registered reachable
  constructor
  · rintro ⟨l', leads, cleaned⟩ hangs
    have kept : (∃ clients, Registered l'.server clients) ∧ l'.Hangs := by
      apply leads.invariant (P := fun l => (∃ clients, Registered l.server clients) ∧ l.Hangs)
        ⟨⟨clients, registered⟩, hangs⟩
      rintro l l' action ⟨⟨clients, registered⟩, hangs⟩ run
      obtain ⟨act, taken, _⟩ := Lifecycle.step_server run
      exact ⟨registered.kept act taken, hangs.step registered run⟩
    exact kept.2.2.1 cleaned
  · intro free
    cases isMain : l.server.main with
    | cleaned => exact ⟨l, .refl, isMain⟩
    | cleaning =>
      -- Here `main` asks for nothing any more, whatever the locks.
      have run : l.server.runMain .eof = .ok (some ({ l.server with main := .cleaned }.note .cleanup)) := by
        simp only [State.runMain, isMain]
        rfl
      exact ⟨_, .single ⟨_, Lifecycle.step_eof (by simp [isMain]) run⟩, rfl⟩
    | _ =>
      have drains : Drains l := by
        refine ⟨⟨clients, registered⟩, ?_, fun stranded => free ?_⟩
        · by_contra stuck
          exact free ⟨by simp [isMain], by simp [isMain], .inl (by simpa using stuck)⟩
        · exact ⟨by simp [isMain], by simp [isMain], .inr stranded⟩
      exact Transition.leads_of_progress (P := Drains) (fun l drains unfinished => drains.progress unfinished) drains

/-- A client passes its test before the end of input and comes to wait for `go` after `delete_all`. -/
def strandedVisit : List LifeAction :=
  [.act .connect, .act .detach, .act (.client 0 true), .act (.main .stop), .act (.main .eof), .act (.main .eof),
    .act (.main .eof), .act (.client 0 true), .act (.client 0 true), .act (.client 0 true)]

/-- The same client when it comes to wait before the end of input. -/
def wokenVisit : List LifeAction :=
  [.act .connect, .act .detach] ++ List.replicate 3 (.act (.client 0 true)) ++
    [.act (.main .stop), .act (.client 0 true), .act (.client 0 true), .act (.main .eof), .act (.main .eof), .act (.main .eof)]

theorem finishes_iff_stranded :
    (∃ l, Lifecycle.Reachable (fun _ _ => True) l ∧ l.server.pcOf 0 = some .ready ∧ ¬l.Finishes) ∧
    ∃ l, Lifecycle.Reachable (fun _ _ => True) l ∧ l.server.pcOf 0 = some .blocked ∧ l.Finishes := by
  constructor
  · have run : (Transition.follow Lifecycle.step (fun _ _ => True) strandedVisit .initial).map
        (fun l => (l.server.main, l.server.stopped, l.server.threads 0)) =
        some (.waiting, true, some ⟨.ready, false⟩) := by decide +kernel
    obtain ⟨l, found, view⟩ := Option.map_eq_some_iff.mp run
    obtain ⟨isMain, view⟩ := Prod.mk.inj view
    obtain ⟨stopped, running⟩ := Prod.mk.inj view
    have reachable : Lifecycle.Reachable (fun _ _ => True) l := Transition.follow_reachable .initial found
    refine ⟨l, reachable, by rw [State.pcOf, running]; rfl, fun finishes => (finishes_iff reachable).mp finishes ?_⟩
    exact ⟨by simp [isMain], by simp [isMain], .inr ⟨isMain, stopped, 0, _, running, rfl, .inl rfl⟩⟩
  · have run : (Transition.follow Lifecycle.step (fun _ _ => True) wokenVisit .initial).map
        (fun l => (l.stuck, l.server.created, l.server.threads 0)) = some (false, 1, some ⟨.blocked, true⟩) := by
      decide +kernel
    obtain ⟨l, found, view⟩ := Option.map_eq_some_iff.mp run
    obtain ⟨unlocked, view⟩ := Prod.mk.inj view
    obtain ⟨created, running⟩ := Prod.mk.inj view
    have reachable : Lifecycle.Reachable (fun _ _ => True) l := Transition.follow_reachable .initial found
    refine ⟨l, reachable, by rw [State.pcOf, running]; rfl, (finishes_iff reachable).mpr ?_⟩
    rintro ⟨_, _, stuck | ⟨_, _, c, thread, other, unasked, _⟩⟩
    · rw [unlocked] at stuck
      cases stuck
    · obtain ⟨clients, registered⟩ := reachable_registered reachable
      have only : c = 0 := by
        by_contra different
        have unused := registered.bounded c (by rw [created]; exact Nat.one_le_iff_ne_zero.mpr different)
        rw [State.pcOf, other] at unused
        cases unused
      rw [only, running] at other
      obtain rfl := Option.some.inj other
      cases unasked

end Cs1330.Server
