import Cs1330.Server.Cancellation
import Cs1330.Server.Draining
import Cs1330.Server.Lockstep

/-!
# One thread at three levels

`run_client` is modelled with the locks it holds, with its sections as steps, and as one end of a
connection. The first is a refinement of the second, where a section of the second is the step of
the first at which the section has its effect; and what the server does on a connection is a run of
a client thread of the second.
-/

namespace Cs1330.Server.Locks

variable {s s' : State} {t t' : Server.State} {c d : ClientId} {thread thread' : Thread} {outer : Server.Thread}
  {pc : Pc} {input : Input} {change : Int}

/-- The section that a thread is before or in; a list section is over when its mutex is locked to unlink. -/
def Pc.atSection : Pc → Server.Pc
  | start => .start
  | admitted | counting => .admitted
  | counted | inserting => .counted
  | replying | reading => .serving
  | ready | testing => .ready
  | blocked => .blocked
  | passing => .calling
  | interpreting _ | scanning _ | inCall _ => .interpreting
  | unblocking | releasing | leaving => .leaving
  | unlinking | unlinked | uncounting => .unlinked
  | closing | reporting | signalling | unlocking | terminated => .terminated

/-- A thread may have come to the test of `stopped` from `pthread_cond_wait`. -/
def Pc.Within (pc : Pc) (outer : Server.Pc) : Prop := outer = pc.atSection ∨ pc = .testing ∧ outer = .blocked

structure Thread.Within (thread : Thread) (outer : Server.Thread) : Prop where
  place : thread.pc.Within outer.pc
  cancelled : outer.cancelled = thread.cancelled

/-- The state `t` of the sections that the state `s` of the locks is in. -/
structure Sections (s : State) (t : Server.State) : Prop where
  threads : ∀ c, Option.Rel Thread.Within (s.threads c) (t.threads c)
  created : t.created = s.created
  num : t.numClientThreads = s.numClientThreads
  accepting : t.acceptingClients = s.acceptingClients
  stopped : t.stopped = s.stopped
  main : t.main = s.main
  listener : t.listener = none
  registered : ∃ clients, Registered t clients

theorem sections_initial : Sections .initial .initial :=
  ⟨fun _ => .none, rfl, rfl, rfl, rfl, rfl, rfl, [], registered_initial⟩

theorem Pc.Within.eq {outer : Server.Pc} (within : pc.Within outer) (other : pc ≠ .testing) : outer = pc.atSection := by
  rcases within with same | ⟨isTesting, _⟩
  · exact same
  · exact absurd isTesting other

theorem Pc.Within.listed {outer : Server.Pc} (within : pc.Within outer) : outer.listed = pc.listed := by
  rcases within with rfl | ⟨rfl, rfl⟩
  · cases pc <;> rfl
  · rfl

theorem Pc.Within.counts {outer : Server.Pc} (within : pc.Within outer) : outer.counts = pc.atSection.counts := by
  rcases within with rfl | ⟨rfl, rfl⟩ <;> rfl

theorem Sections.exists_outer (sections : Sections s t) (found : s.threads c = some thread) :
    ∃ outer, t.threads c = some outer ∧ thread.Within outer := by
  have related := sections.threads c
  rw [found] at related
  cases isOuter : t.threads c with
  | none =>
    rw [isOuter] at related
    cases related
  | some outer =>
    rw [isOuter] at related
    cases related with
    | some within => exact ⟨outer, rfl, within⟩

theorem Sections.absent (sections : Sections s t) (unknown : s.threads c = none) : t.threads c = none := by
  have related := sections.threads c
  rw [unknown] at related
  cases isOuter : t.threads c with
  | none => rfl
  | some outer =>
    rw [isOuter] at related
    cases related

/-! ### A step of a thread -/

/-- Thread `c` has taken a step, which adds `change` to `num_client_threads`. -/
structure Steps (s s' : State) (c : ClientId) (thread' : Thread) (change : Int) : Prop where
  threads : s'.threads = Function.update s.threads c (some thread')
  created : s'.created = s.created
  num : s'.numClientThreads = s.numClientThreads + change
  accepting : s'.acceptingClients = s.acceptingClients
  stopped : s'.stopped = s.stopped
  main : s'.main = s.main

theorem goto_steps (s : State) (c : ClientId) (thread : Thread) (pc : Pc) :
    Steps s (s.goto c thread pc) c { thread with pc := pc } 0 :=
  ⟨rfl, rfl, (Int.add_zero _).symm, rfl, rfl, rfl⟩

theorem unlock_steps (s : State) (c : ClientId) (thread : Thread) (m : Mutex) (pc : Pc) :
    Steps s (s.unlock c thread m pc) c { thread with pc := pc } 0 :=
  ⟨rfl, rfl, (Int.add_zero _).symm, rfl, rfl, rfl⟩

theorem lock_steps {m : Mutex} (run : s.lock c thread m pc = some s') : Steps s s' c { thread with pc := pc } 0 := by
  unfold State.lock at run
  split at run
  · cases run
    exact ⟨rfl, rfl, (Int.add_zero _).symm, rfl, rfl, rfl⟩
  · cases run

theorem database_steps {action : Db.Action} {next : Db.System → Pc} (run : s.database c thread action next = .ok (some s')) :
    ∃ db, Steps s s' c { thread with pc := next db } 0 := by
  unfold State.database at run
  obtain ⟨result, _, run⟩ := Run.except_bind run
  cases result with
  | none => cases run
  | some db =>
    cases run
    exact ⟨db, rfl, rfl, (Int.add_zero _).symm, rfl, rfl, rfl⟩

theorem Sections.stutters (sections : Sections s t) (steps : Steps s s' c thread' 0) (running : t.threads c = some outer)
    (within : thread'.Within outer) : Sections s' t := by
  refine ⟨?_, sections.created.trans steps.created.symm, ?_, sections.accepting.trans steps.accepting.symm,
    sections.stopped.trans steps.stopped.symm, sections.main.trans steps.main.symm, sections.listener, sections.registered⟩
  · intro d
    rw [steps.threads]
    by_cases here : d = c
    · subst here
      rw [Function.update_self, running]
      exact .some within
    · rw [Function.update_of_ne here]
      exact sections.threads d
  · rw [sections.num, steps.num, Int.add_zero]

/-- The step of `c` is the section that it is at. -/
theorem Sections.moves {next : Server.Pc} (sections : Sections s t) (steps : Steps s s' c thread' change)
    (running : t.threads c = some outer) (moves : Moves t t' c next) (place : thread'.pc.Within next)
    (cancelled : outer.cancelled = thread'.cancelled) (num : t'.numClientThreads = t.numClientThreads + change)
    (accepting : t'.acceptingClients = t.acceptingClients) (listener : t'.listener = t.listener)
    (registered : ∃ clients, Registered t' clients) : Sections s' t' := by
  refine ⟨?_, ?_, ?_, ?_, ?_, ?_, listener.trans sections.listener, registered⟩
  · intro d
    rw [steps.threads, moves.threads d]
    by_cases here : d = c
    · subst here
      rw [if_pos rfl, Function.update_self, running]
      exact .some ⟨place, cancelled⟩
    · rw [if_neg here, Function.update_of_ne here]
      exact sections.threads d
  · rw [moves.created, sections.created, steps.created]
  · rw [num, sections.num, steps.num]
  · rw [accepting, sections.accepting, steps.accepting]
  · rw [moves.stopped, sections.stopped, steps.stopped]
  · rw [moves.main, sections.main, steps.main]

theorem Sections.serves (sections : Sections s t) (steps : Steps s s' c thread' change) {place : Server.Pc} {asked : Bool}
    (running : t.threads c = some ⟨place, asked⟩) (alive : place ≠ .terminated) (served : Bool)
    (within : thread'.pc.Within (t.following served place)) (same : asked = thread'.cancelled)
    (weight : change = (t.following served place).weight - place.weight) :
    ∃ t', Transition.Leads Server.State.step t t' ∧ Sections s' t' := by
  obtain ⟨clients, registered⟩ := sections.registered
  rcases registered.runClient (c := c) served with blocked | ⟨t', clients', run, listener, registered'⟩
  · obtain ⟨_, possible, _⟩ := runClient_moves blocked running alive
    cases possible
  · obtain ⟨_, taken, moves⟩ := runClient_moves run running alive
    obtain rfl := Option.some.inj taken
    obtain ⟨pc, next, events, _, turned⟩ := runClient_turned run
    have was : place = pc := by
      have was := turned.was
      rw [Server.State.pcOf, running] at was
      exact Option.some.inj was
    have is : t.following served place = next := by
      have is := turned.pcs c
      rw [if_pos rfl, Server.State.pcOf, moves.threads c, if_pos rfl, running] at is
      exact Option.some.inj is
    refine ⟨t', .single ⟨.client c served, run⟩, sections.moves steps running moves within same ?_ turned.accepting
      listener ⟨clients', registered'⟩⟩
    rw [turned.num, weight, is, was]

/-- `interpret_command` returns to the loop over a file, or to `run_client`, which is the end of the section. -/
theorem Sections.returned {files : Nat} (sections : Sections s t) (steps : Steps s s' c thread' 0)
    (running : t.threads c = some outer) (isOuter : outer.pc = .interpreting) (place : thread'.pc = .returned files)
    (cancelled : outer.cancelled = thread'.cancelled) : ∃ t', Transition.Leads Server.State.step t t' ∧ Sections s' t' := by
  cases files with
  | zero =>
    refine sections.serves steps running (by simp [isOuter]) true ?_ cancelled ?_
    · rw [place, isOuter]
      exact .inl rfl
    · rw [isOuter]
      rfl
  | succ files =>
    refine ⟨t, .refl, sections.stutters steps running ⟨?_, cancelled⟩⟩
    rw [place, isOuter]
    exact .inl rfl

/-- The loop of `client_control_wait`, for a thread that comes from the lock or from `pthread_cond_wait`. -/
theorem Sections.tests (sections : Sections s t) {place : Server.Pc} {asked : Bool}
    (running : t.threads c = some ⟨place, asked⟩) (waits : place = .ready ∨ place = .blocked) (same : asked = thread.cancelled) :
    ∃ t', Transition.Leads Server.State.step t t' ∧
      Sections (if s.stopped then s.unlock c thread .go .blocked else s.goto c thread .passing) t' := by
  have following : t.following true place = if s.stopped then .blocked else .calling := by
    rcases waits with rfl | rfl <;> simp only [Server.State.following, sections.stopped]
  have alive : place ≠ .terminated := by
    rcases waits with rfl | rfl <;> decide
  have weight : 0 = (t.following true place).weight - place.weight := by
    rw [following]
    rcases waits with rfl | rfl <;> split <;> rfl
  cases stopped : s.stopped with
  | true =>
    rw [stopped] at following
    exact sections.serves (unlock_steps ..) running alive true (.inl following) same weight
  | false =>
    rw [stopped] at following
    exact sections.serves (goto_steps ..) running alive true (.inl following) same weight

theorem Sections.interprets {files : Nat} (sections : Sections s t) (running : t.threads c = some outer)
    (isOuter : outer.pc = .interpreting) (same : outer.cancelled = thread.cancelled)
    (run : s.interpret c thread files input = .ok (some s')) :
    ∃ t', Transition.Leads Server.State.step t t' ∧ Sections s' t' := by
  cases input with
  | command call =>
    obtain ⟨db, steps⟩ := database_steps run
    exact ⟨t, .refl, sections.stutters steps running ⟨.inl isOuter, same⟩⟩
  | file =>
    cases run
    exact ⟨t, .refl, sections.stutters (goto_steps ..) running ⟨.inl isOuter, same⟩⟩
  | succeeds | fails =>
    cases run
    exact sections.returned (goto_steps ..) running isOuter rfl same

theorem Sections.runClient (sections : Sections s t) (run : s.runClient c input = .ok (some s')) :
    ∃ t', Transition.Leads Server.State.step t t' ∧ Sections s' t' := by
  unfold State.runClient at run
  cases found : s.threads c with
  | none =>
    rw [found] at run
    cases run
  | some thread =>
    rw [found] at run
    obtain ⟨⟨place, asked⟩, running, ⟨within, same⟩⟩ := sections.exists_outer found
    obtain ⟨pc, cancelled, exiting, incremented, decremented, signalled⟩ := thread
    replace within : pc.Within place := within
    cases pc with
    | start =>
      obtain rfl := within.eq Pc.noConfusion
      cases run
      refine sections.serves (goto_steps ..) running (by decide) true (.inl ?_) same ?_
      · simp only [Server.State.following, Pc.atSection, sections.accepting]
        split <;> rfl
      · simp only [Server.State.following, Pc.atSection]
        split <;> rfl
    | admitted | counted | ready | unblocking | unlinked =>
      obtain rfl := within.eq Pc.noConfusion
      exact ⟨t, .refl, sections.stutters (lock_steps (Except.ok.inj run)) running ⟨.inl rfl, same⟩⟩
    | releasing | unlinking | unlocking =>
      obtain rfl := within.eq Pc.noConfusion
      cases run
      exact ⟨t, .refl, sections.stutters (unlock_steps ..) running ⟨.inl rfl, same⟩⟩
    | counting | uncounting =>
      obtain rfl := within.eq Pc.noConfusion
      cases run
      exact sections.serves ⟨rfl, rfl, rfl, rfl, rfl, rfl⟩ running (by decide) true (.inl rfl) same rfl
    | inserting | passing =>
      obtain rfl := within.eq Pc.noConfusion
      cases run
      exact sections.serves (unlock_steps ..) running (by decide) true (.inl rfl) same rfl
    | leaving =>
      obtain rfl := within.eq Pc.noConfusion
      exact sections.serves (lock_steps (Except.ok.inj run)) running (by decide) true (.inl rfl) same rfl
    | replying =>
      obtain rfl := within.eq Pc.noConfusion
      cases run
      split
      · exact sections.serves (goto_steps ..) running (by decide) false (.inl rfl) same rfl
      · exact ⟨t, .refl, sections.stutters (goto_steps ..) running ⟨.inl rfl, same⟩⟩
    | reading =>
      obtain rfl := within.eq Pc.noConfusion
      cases run
      split
      · exact sections.serves (goto_steps ..) running (by decide) false (.inl rfl) same rfl
      · exact sections.serves (goto_steps ..) running (by decide) true (.inl rfl) same rfl
    | testing =>
      cases run
      exact sections.tests running (within.imp_right And.right) same
    | blocked =>
      obtain rfl := within.eq Pc.noConfusion
      exact ⟨t, .refl, sections.stutters (lock_steps (Except.ok.inj run)) running ⟨.inr ⟨rfl, rfl⟩, same⟩⟩
    | interpreting files =>
      obtain rfl := within.eq Pc.noConfusion
      exact sections.interprets running rfl same run
    | scanning files =>
      obtain rfl := within.eq Pc.noConfusion
      cases run
      split
      · exact sections.returned (goto_steps ..) running rfl rfl same
      · exact ⟨t, .refl, sections.stutters (goto_steps ..) running ⟨.inl rfl, same⟩⟩
    | inCall files =>
      obtain rfl := within.eq Pc.noConfusion
      obtain ⟨db, steps⟩ := database_steps run
      by_cases idle : (db.threads c).isNone = true
      · rw [if_pos idle] at steps
        exact sections.returned steps running rfl rfl same
      · rw [if_neg idle] at steps
        exact ⟨t, .refl, sections.stutters steps running ⟨.inl rfl, same⟩⟩
    | closing =>
      obtain rfl := within.eq Pc.noConfusion
      cases run
      split
      · exact ⟨t, .refl, sections.stutters (goto_steps ..) running ⟨.inl rfl, same⟩⟩
      · exact ⟨t, .refl, sections.stutters (goto_steps ..) running ⟨.inl rfl, same⟩⟩
    | reporting =>
      obtain rfl := within.eq Pc.noConfusion
      cases run
      exact ⟨t, .refl, sections.stutters (goto_steps ..) running ⟨.inl rfl, same⟩⟩
    | signalling =>
      obtain rfl := within.eq Pc.noConfusion
      cases run
      exact ⟨t, .refl, sections.stutters ⟨rfl, rfl, (Int.add_zero _).symm, rfl, rfl, rfl⟩ running ⟨.inl rfl, same⟩⟩
    | terminated => cases run

theorem Sections.leaves (sections : Sections s t) (steps : Steps s s' c thread' 0) (running : t.threads c = some outer)
    (point : outer.pc.cancellationPoint = true) (asked : thread'.cancelled = true) (same : outer.cancelled = thread'.cancelled)
    (place : thread'.pc.atSection = .leaving) : ∃ t', Transition.Leads Server.State.step t t' ∧ Sections s' t' := by
  obtain ⟨clients, registered⟩ := sections.registered
  have run : t.actOnCancel c = some (t.goto c outer .leaving) :=
    actOnCancel_iff.mpr ⟨outer, running, same.trans asked, point, rfl⟩
  have act : t.step (.cancel c) = .ok (some (t.goto c outer .leaving)) := congrArg Except.ok run
  exact ⟨_, .single ⟨_, act⟩, sections.moves steps running (goto_moves running rfl rfl rfl rfl) (.inl place.symm) same
    (Int.add_zero _).symm rfl rfl (registered.kept _ act)⟩

theorem Sections.actOnCancel (sections : Sections s t) (run : s.actOnCancel c = some s') :
    ∃ t', Transition.Leads Server.State.step t t' ∧ Sections s' t' := by
  unfold State.actOnCancel at run
  cases found : s.threads c with
  | none =>
    rw [found] at run
    cases run
  | some thread =>
    rw [found] at run
    by_cases requested : thread.cancelled = true ∧ thread.exiting = false
    · simp only [if_pos requested] at run
      obtain ⟨⟨place, asked⟩, running, ⟨within, same⟩⟩ := sections.exists_outer found
      obtain ⟨pc, cancelled, exiting, incremented, decremented, signalled⟩ := thread
      cases pc with
      | replying | reading | interpreting _ | scanning _ | blocked =>
        obtain rfl := within.eq Pc.noConfusion
        cases run
        exact sections.leaves (goto_steps ..) running rfl requested.1 same rfl
      | inCall files =>
        obtain rfl := within.eq Pc.noConfusion
        by_cases locking : State.inRwlock (s.db.threads c) = true
        · simp only [if_pos locking] at run
          cases run
          exact sections.leaves ⟨rfl, rfl, (Int.add_zero _).symm, rfl, rfl, rfl⟩ running rfl requested.1 same rfl
        · simp only [if_neg locking] at run
          cases run
      | closing | reporting =>
        obtain rfl := within.eq Pc.noConfusion
        cases run
        exact ⟨t, .refl, sections.stutters (goto_steps ..) running ⟨.inl rfl, same⟩⟩
      | _ => cases run
    · simp only [if_neg requested] at run
      cases run

/-! ### The other threads -/

theorem cancelFrom_stopped (rounds : Nat) :
    ∀ (first : Option ClientId) (t t' : Server.State), Server.State.cancelFrom rounds first t = .ok t' →
      t'.stopped = t.stopped := by
  induction rounds with
  | zero =>
    intro first t t' run
    cases first with
    | none =>
      cases run
      rfl
    | some c => cases run
  | succ rounds ih =>
    intro first t t' run
    cases first with
    | none =>
      cases run
      rfl
    | some c =>
      unfold Server.State.cancelFrom at run
      obtain ⟨client, _, run⟩ := Run.except_bind run
      exact ih client.next (t.pthreadCancel c) t' run

/-- `delete_all` asks the same threads on both levels, as each is in the list from the section that inserts it. -/
theorem Sections.deleteAll (sections : Sections s t) (run : s.deleteAll = some s') :
    ∃ t', t.deleteAll = .ok t' ∧ Sections s' t' := by
  unfold State.deleteAll at run
  split at run
  · cases run
    obtain ⟨clients, registered⟩ := sections.registered
    obtain ⟨t', delete, listener, registered', threads⟩ := registered.deleteAll
    have same := cancelFrom_course _ _ _ _ delete
    refine ⟨t', delete, ?_, same.created.trans sections.created, same.num.trans sections.num,
      same.accepting.trans sections.accepting, (cancelFrom_stopped _ _ _ _ delete).trans sections.stopped,
      same.main.trans sections.main, listener.trans sections.listener, clients, registered'⟩
    intro c
    rw [threads c]
    cases found : s.threads c with
    | none => simp [found, sections.absent found]
    | some thread =>
      obtain ⟨outer, running, within⟩ := sections.exists_outer found
      have listed : c ∈ clients ↔ thread.pc.listed = true := by
        rw [registered.members c, ← within.place.listed, Server.State.pcOf, running]
        simp
      rw [running]
      by_cases member : c ∈ clients
      · simp only [found, if_pos member, Option.map_some, if_pos (listed.mp member)]
        exact .some ⟨within.place, rfl⟩
      · simp only [found, if_neg member, Option.map_some, if_neg (mt listed.mpr member)]
        exact .some within
  · cases run

/-- `main` has taken the same step on both levels, which leaves the threads as they are. -/
theorem Sections.still {command : MainCommand} (sections : Sections s t) (run : t.runMain command = .ok (some t'))
    (threads' : t'.threads = t.threads) (created' : t'.created = t.created) (num' : t'.numClientThreads = t.numClientThreads)
    (listener' : t'.listener = t.listener) (threads : s'.threads = s.threads) (created : s'.created = s.created)
    (num : s'.numClientThreads = s.numClientThreads) (accepting : t'.acceptingClients = s'.acceptingClients)
    (stopped : t'.stopped = s'.stopped) (main : t'.main = s'.main) : Sections s' t' := by
  obtain ⟨clients, registered⟩ := sections.registered
  refine ⟨?_, ?_, ?_, accepting, stopped, main, listener'.trans sections.listener, registered.kept (.main command) run⟩
  · rw [threads, threads']
    exact sections.threads
  · rw [created', sections.created, created]
  · rw [num', sections.num, num]

theorem Sections.setStopped {stopped : Bool} {event : Event} {command : MainCommand} (sections : Sections s t)
    (run : s.setStopped stopped = some s') (act : t.runMain command = .ok (some ({ t with stopped := stopped }.note event))) :
    Sections s' ({ t with stopped := stopped }.note event) := by
  unfold State.setStopped at run
  split at run
  · cases run
    exact sections.still act rfl rfl rfl rfl rfl rfl rfl sections.accepting rfl sections.main
  · cases run

theorem Sections.runMain {command : MainCommand} (sections : Sections s t) (run : s.runMain command = some s') :
    ∃ t', t.runMain command = .ok (some t') ∧ Sections s' t' := by
  have isMain := sections.main
  unfold State.runMain at run
  cases stands : s.main with
  | commands =>
    rw [stands] at run isMain
    cases command with
    | stop =>
      have act : t.runMain .stop = .ok (some ({ t with stopped := true }.note .stop)) := by
        simp only [Server.State.runMain, isMain]
        rfl
      exact ⟨_, act, sections.setStopped run act⟩
    | go =>
      have act : t.runMain .go = .ok (some ({ t with stopped := false }.note .release)) := by
        simp only [Server.State.runMain, isMain]
        rfl
      exact ⟨_, act, sections.setStopped run act⟩
    | print =>
      cases run
      refine ⟨t, ?_, sections⟩
      simp only [Server.State.runMain, isMain]
      rfl
    | eof =>
      cases run
      have act : t.runMain .eof = .ok (some { t with main := .closing }) := by
        simp only [Server.State.runMain, isMain]
        rfl
      exact ⟨_, act, sections.still act rfl rfl rfl rfl rfl rfl rfl sections.accepting sections.stopped rfl⟩
  | closing =>
    rw [stands] at run isMain
    cases run
    have act : t.runMain command = .ok (some { t with acceptingClients := 0, main := .refusing }) := by
      simp only [Server.State.runMain, isMain]
      rfl
    exact ⟨_, act, sections.still act rfl rfl rfl rfl rfl rfl rfl rfl sections.stopped rfl⟩
  | refusing =>
    rw [stands] at run isMain
    obtain ⟨next, marked, rfl⟩ := Option.map_eq_some_iff.mp run
    obtain ⟨t', delete, sections'⟩ := sections.deleteAll marked
    obtain ⟨clients, registered'⟩ := sections'.registered
    refine ⟨{ t' with main := .waiting }, ?_, ?_⟩
    · simp only [Server.State.runMain, isMain, delete]
      rfl
    · exact ⟨sections'.threads, sections'.created, sections'.num, sections'.accepting, sections'.stopped, rfl,
        sections'.listener, clients, registered'.same rfl (fun _ => rfl) rfl rfl rfl⟩
  | waiting =>
    rw [stands] at run isMain
    simp only at run
    split at run
    · rename_i done
      cases run
      have idle : ¬t.numClientThreads > 0 := by
        rw [sections.num]
        exact not_lt_of_ge done.2
      have act : t.runMain command = .ok (some { t with main := .cleaning }) := by
        simp only [Server.State.runMain, isMain, if_neg idle]
        rfl
      exact ⟨_, act, sections.still act rfl rfl rfl rfl rfl rfl rfl sections.accepting sections.stopped rfl⟩
    · cases run
  | cleaning =>
    rw [stands] at run
    cases run
  | cleaned =>
    rw [stands] at run
    cases run

/-- The listener detaches the thread of a new client at once. -/
theorem Sections.connect (sections : Sections s t) :
    ∃ t', Transition.Leads Server.State.step t t' ∧ Sections s.connect t' := by
  obtain ⟨clients, registered⟩ := sections.registered
  have isNew : t.step .connect = .ok (some t.clientConstructor) := by
    simp only [Server.State.step, if_pos sections.listener]
    rfl
  have detached : t.clientConstructor.step .detach = .ok (some { t.clientConstructor with listener := none }) := by
    simp only [Server.State.step, Server.State.clientConstructor, Server.State.getClient, Function.update_self]
    rfl
  refine ⟨{ t.clientConstructor with listener := none }, .head ⟨_, isNew⟩ (.single ⟨_, detached⟩), ?_⟩
  refine ⟨?_, ?_, sections.num, sections.accepting, sections.stopped, sections.main, rfl, clients,
    registered.connect.same rfl (fun _ => rfl) rfl rfl rfl⟩
  · intro c
    show Option.Rel _ (Function.update s.threads s.created _ c) (Function.update t.threads t.created _ c)
    rw [sections.created]
    by_cases new : c = s.created
    · subst new
      rw [Function.update_self, Function.update_self]
      exact .some ⟨.inl rfl, rfl⟩
    · rw [Function.update_of_ne new, Function.update_of_ne new]
      exact sections.threads c
  · exact congrArg (· + 1) sections.created

theorem locks_simulates : Transition.Simulates State.step Server.State.step Sections := by
  intro s s' action t sections run
  cases action with
  | connect =>
    cases run
    exact sections.connect
  | client c input => exact sections.runClient run
  | cancel c => exact sections.actOnCancel (Except.ok.inj run)
  | sigint =>
    have run := Except.ok.inj run
    by_cases running : s.main = .commands
    · rw [if_pos running] at run
      obtain ⟨t', delete, sections'⟩ := sections.deleteAll run
      refine ⟨t', .single ⟨.sigint, ?_⟩, sections'⟩
      simp only [Server.State.step, sections.main, if_pos running, delete]
      rfl
    · rw [if_neg running] at run
      cases run
  | main command =>
    obtain ⟨t', act, sections'⟩ := sections.runMain (Except.ok.inj run)
    exact ⟨t', .single ⟨.main command, act⟩, sections'⟩

/-- Every run with the locks is a run of the sections. -/
theorem reachable_sections (reachable : Reachable (fun _ _ => True) s) :
    ∃ t, Server.Reachable (fun _ _ => True) t ∧ Sections s t := by
  obtain ⟨t, leads, sections⟩ := locks_simulates.reachable reachable sections_initial
  exact ⟨t, leads.reachable .initial, sections⟩

/-- `num_client_threads` is the number of the threads between the two sections that change it, cancelled or not. -/
theorem numClientThreads_counts (reachable : Reachable (fun _ _ => True) s) :
    ∃ members : Finset ClientId, s.numClientThreads = members.card ∧
      ∀ c, c ∈ members ↔ ∃ thread, s.threads c = some thread ∧ thread.pc.atSection.counts = true := by
  obtain ⟨t, _, sections⟩ := reachable_sections reachable
  obtain ⟨clients, registered⟩ := sections.registered
  obtain ⟨members, isMember, count⟩ := registered.tallied
  refine ⟨members, sections.num.symm.trans count, fun c => ?_⟩
  rw [isMember c, Server.State.pcOf]
  cases found : s.threads c with
  | none => simp [sections.absent found]
  | some thread =>
    obtain ⟨outer, running, within⟩ := sections.exists_outer found
    rw [running]
    simp [within.place.counts]

end Cs1330.Server.Locks

namespace Cs1330.Connection
open Db

variable {files : CString → Option CString} {infile : CString} {qbuf : List UInt8} {store : Store} {s s' : State}
  {t : Server.State} {c : Server.ClientId} {works : Bool}

/-- The section of `run_client` that the server's end of a connection is before or in. -/
def ServerPc.atSection : ServerPc → Server.Pc
  | .replying | .reading => .serving
  | .interpreting => .ready
  | .closed => .leaving

/-- Thread `c` of the server, which is not stopped, stands where the server's end does, and has interpreted
as many commands. -/
structure Serves (c : Server.ClientId) (s : State) (t : Server.State) : Prop where
  thread : t.threads c = some ⟨s.server.atSection, false⟩
  going : t.stopped = false
  answered : t.log.count (.interpret c) = s.answers.length

theorem runClient_server (run : s.runClient = some s') : s'.server = s.server ∧ s'.answers = s.answers := by
  unfold State.runClient at run
  split at run
  · split_ifs at run <;> cases run <;> exact ⟨rfl, rfl⟩
  · split_ifs at run <;> cases run <;> exact ⟨rfl, rfl⟩
  · cases run
  · cases run

/-- `comm_serve` has not come to its end, or is over and has got a command or not. -/
theorem commServe_server (run : s.commServe works = some s') : s'.answers = s.answers ∧ s.server.atSection = .serving ∧
    (s'.server.atSection = .serving ∨ ∃ served : Bool, s'.server.atSection = if served then .ready else .leaving) := by
  cases server : s.server with
  | replying =>
    simp only [State.commServe, server] at run
    split_ifs at run <;> cases run
    · exact ⟨rfl, rfl, .inl rfl⟩
    · exact ⟨rfl, rfl, .inr ⟨false, rfl⟩⟩
    · exact ⟨rfl, rfl, .inl rfl⟩
  | reading =>
    simp only [State.commServe, server] at run
    split_ifs at run <;> cases run
    · exact ⟨rfl, rfl, .inr ⟨false, rfl⟩⟩
    · exact ⟨rfl, rfl, .inr ⟨true, rfl⟩⟩
    · exact ⟨rfl, rfl, .inr ⟨false, rfl⟩⟩
  | interpreting =>
    simp only [State.commServe, server] at run
    cases run
  | closed =>
    simp only [State.commServe, server] at run
    cases run

/-- A thread of a server that is not stopped goes from `client_control_wait` through `interpret_command`. -/
theorem passes (thread : t.threads c = some ⟨.ready, false⟩) (going : t.stopped = false) :
    ∃ t', Transition.Leads Server.State.step t t' ∧ t'.threads c = some ⟨.serving, false⟩ ∧ t'.stopped = false ∧
      t'.log = t.log ++ [.test c, .interpret c] := by
  let tested := (t.note (.test c)).goto c ⟨.ready, false⟩ .calling
  let called := (tested.note (.interpret c)).goto c ⟨.calling, false⟩ .interpreting
  have test : t.step (.client c true) = .ok (some tested) := by
    simp only [Server.State.step, Server.State.runClient, thread, Server.State.clientControlWait, going]
    rfl
  have calling : tested.threads c = some ⟨.calling, false⟩ := Function.update_self _ _ _
  have call : tested.step (.client c true) = .ok (some called) := by
    simp only [Server.State.step, Server.State.runClient, calling]
    rfl
  have interpreting : called.threads c = some ⟨.interpreting, false⟩ := Function.update_self _ _ _
  have answer : called.step (.client c true) = .ok (some (called.goto c ⟨.interpreting, false⟩ .serving)) := by
    simp only [Server.State.step, Server.State.runClient, interpreting]
    rfl
  refine ⟨called.goto c ⟨.interpreting, false⟩ .serving, ?_, Function.update_self _ _ _, going, ?_⟩
  · exact .head ⟨_, test⟩ (.head ⟨_, call⟩ (.single ⟨_, answer⟩))
  · exact List.append_assoc _ _ _

theorem connection_simulates : Transition.Simulates (State.step files) Server.State.step (Serves c) := by
  intro s s' action t serves run
  cases action with
  | client =>
    obtain ⟨server, answers⟩ := runClient_server (Except.ok.inj run)
    exact ⟨t, .refl, by rw [server]; exact serves.thread, serves.going, by rw [answers]; exact serves.answered⟩
  | serve works =>
    obtain ⟨answers, was, rest | ⟨served, next⟩⟩ := commServe_server (Except.ok.inj run)
    · refine ⟨t, .refl, ?_, serves.going, by rw [answers]; exact serves.answered⟩
      rw [rest, ← was]
      exact serves.thread
    · have thread := serves.thread
      rw [was] at thread
      refine ⟨t.goto c ⟨.serving, false⟩ (if served then .ready else .leaving), .single ⟨.client c served, ?_⟩, ?_, serves.going,
        by rw [answers]; exact serves.answered⟩
      · simp only [Server.State.step, Server.State.runClient, thread]
        rfl
      · rw [next]
        exact Function.update_self _ _ _
  | interpret depth =>
    obtain ⟨server, response, store, _, rfl⟩ := interpret_ok run
    have thread := serves.thread
    rw [server] at thread
    obtain ⟨t', leads, thread', going, log⟩ := passes thread serves.going
    refine ⟨t', leads, thread', going, ?_⟩
    rw [log, List.count_append, serves.answered, List.length_append]
    simp

/-- What the server does on a connection is what a thread of `run_client` does, for one command at a time. -/
theorem reachable_serves (reachable : Reachable files (.initial infile qbuf store) s) :
    ∃ t, Server.Reachable (fun _ _ => True) t ∧ Serves 0 s t := by
  have run : (Transition.follow Server.State.step (fun _ _ => True)
      ([.connect, .detach] ++ List.replicate 3 (.client 0 true)) Server.State.initial).map
        (fun t => (t.threads 0, t.stopped, t.log)) = some (some ⟨.serving, false⟩, false, []) := by
    decide +kernel
  obtain ⟨t₀, found, view⟩ := Option.map_eq_some_iff.mp run
  obtain ⟨thread, view⟩ := Prod.mk.inj view
  obtain ⟨going, log⟩ := Prod.mk.inj view
  have start : Serves 0 (.initial infile qbuf store) t₀ := ⟨thread, going, by rw [log]; rfl⟩
  obtain ⟨t, leads, serves⟩ := connection_simulates.reachable reachable start
  exact ⟨t, leads.reachable (Transition.follow_reachable .initial found), serves⟩

end Cs1330.Connection
