import Cs1330.Lib.Run
import Mathlib.Data.Finset.Card
import Cs1330.Server.Clients

/-!
# Shutdown

`main` cleans up the database when it finds no client thread counted. A thread is counted from the
section after its test of `accepting_clients` to the section that destroys its client, so between
the test and the count `main` does not know of it. In the runs in which no thread is there when
`main` stops waiting, no command is interpreted after the cleanup has started.
-/

namespace Cs1330.Server

variable {s s' : State} {c d : ClientId} {thread : Thread} {pc next : Pc}

/-! ### What a step changes -/

def State.pcOf (s : State) (c : ClientId) : Option Pc := (s.threads c).map Thread.pc

/-- The thread is between the section that counts it and the one that uncounts it. -/
def Pc.counts : Pc → Bool
  | .start | .admitted | .terminated => false
  | _ => true

def Pc.weight (pc : Pc) : Int := if pc.counts then 1 else 0

/-- The steps of a client thread and what they log. -/
inductive Turn (s : State) (c : ClientId) : Pc → Pc → List Event → Prop
  | refuse : s.acceptingClients = 0 → Turn s c .start .terminated []
  | accept : s.acceptingClients ≠ 0 → Turn s c .start .admitted []
  | count : Turn s c .admitted .counted []
  | insert : Turn s c .counted .serving []
  | serve : Turn s c .serving .ready []
  | disconnect : Turn s c .serving .leaving []
  | block {pc : Pc} : pc = .ready ∨ pc = .blocked → s.stopped = true → Turn s c pc .blocked []
  | pass {pc : Pc} : pc = .ready ∨ pc = .blocked → s.stopped = false → Turn s c pc .calling [.test c]
  | call : Turn s c .calling .interpreting [.interpret c]
  | answer : Turn s c .interpreting .serving []
  | cancel {pc : Pc} : pc.cancellationPoint = true → Turn s c pc .leaving []
  | unlink : Turn s c .leaving .unlinked []
  | destroy : Turn s c .unlinked .terminated []

/-- Nothing that decides the course of the threads has changed. -/
structure SameCourse (s s' : State) : Prop where
  created : s'.created = s.created
  pcs : ∀ c, s'.pcOf c = s.pcOf c
  num : s'.numClientThreads = s.numClientThreads
  accepting : s'.acceptingClients = s.acceptingClients
  main : s'.main = s.main
  log : s'.log = s.log

structure Turned (s s' : State) (c : ClientId) (pc next : Pc) (events : List Event) : Prop where
  created : s'.created = s.created
  was : s.pcOf c = some pc
  pcs : ∀ d, s'.pcOf d = if d = c then some next else s.pcOf d
  num : s'.numClientThreads = s.numClientThreads + (next.weight - pc.weight)
  accepting : s'.acceptingClients = s.acceptingClients
  main : s'.main = s.main
  log : s'.log = s.log ++ events

theorem SameCourse.refl (s : State) : SameCourse s s := ⟨rfl, fun _ => rfl, rfl, rfl, rfl, rfl⟩

theorem SameCourse.trans {s'' : State} (first : SameCourse s s') (second : SameCourse s' s'') : SameCourse s s'' :=
  ⟨second.created.trans first.created, fun c => (second.pcs c).trans (first.pcs c), second.num.trans first.num, second.accepting.trans first.accepting,
    second.main.trans first.main, second.log.trans first.log⟩

theorem setClient_course {change : Client → Client} (run : s.setClient c change = .ok s') : SameCourse s s' := by
  unfold State.setClient at run
  obtain ⟨client, _, run⟩ := Run.except_bind run
  cases run
  exact ⟨rfl, fun _ => rfl, rfl, rfl, rfl, rfl⟩

theorem insertClient_course (run : s.insertClient c = .ok s') : SameCourse s s' := by
  unfold State.insertClient at run
  obtain ⟨s₁, first, run⟩ := Run.except_bind run
  have linked := setClient_course first
  cases head : s.threadListHead with
  | none =>
    rw [head] at run
    cases run
    exact linked.trans ⟨rfl, fun _ => rfl, rfl, rfl, rfl, rfl⟩
  | some old =>
    rw [head] at run
    obtain ⟨s₂, second, run⟩ := Run.except_bind run
    cases run
    exact linked.trans ((setClient_course second).trans ⟨rfl, fun _ => rfl, rfl, rfl, rfl, rfl⟩)

theorem unlinkPrev_course (run : s.unlinkPrev c = .ok s') : SameCourse s s' := by
  unfold State.unlinkPrev at run
  obtain ⟨client, _, run⟩ := Run.except_bind run
  cases prev : client.prev with
  | none =>
    rw [prev] at run
    cases run
    exact ⟨rfl, fun _ => rfl, rfl, rfl, rfl, rfl⟩
  | some other =>
    rw [prev] at run
    exact setClient_course run

theorem unlinkClient_course (run : s.unlinkClient c = .ok s') : SameCourse s s' := by
  unfold State.unlinkClient at run
  obtain ⟨client, _, run⟩ := Run.except_bind run
  cases following : client.next with
  | none =>
    rw [following] at run
    exact unlinkPrev_course run
  | some other =>
    rw [following] at run
    obtain ⟨s₁, first, run⟩ := Run.except_bind run
    exact (setClient_course first).trans (unlinkPrev_course run)

theorem clientDestructor_course (run : s.clientDestructor c = .ok s') : SameCourse s s' := by
  unfold State.clientDestructor at run
  obtain ⟨client, _, run⟩ := Run.except_bind run
  cases run
  exact ⟨rfl, fun _ => rfl, rfl, rfl, rfl, rfl⟩

theorem pthreadCancel_course (s : State) (c : ClientId) : SameCourse s (s.pthreadCancel c) := by
  refine ⟨rfl, fun d => ?_, rfl, rfl, rfl, rfl⟩
  show (Function.update s.threads c _ d).map Thread.pc = (s.threads d).map Thread.pc
  by_cases here : d = c
  · subst here
    rw [Function.update_self, Option.map_map]
    rfl
  · rw [Function.update_of_ne here]

theorem cancelFrom_course (rounds : Nat) :
    ∀ (first : Option ClientId) (s s' : State), State.cancelFrom rounds first s = .ok s' → SameCourse s s' := by
  induction rounds with
  | zero =>
    intro first s s' run
    cases first with
    | none =>
      cases run
      exact SameCourse.refl s
    | some c => cases run
  | succ rounds ih =>
    intro first s s' run
    cases first with
    | none =>
      cases run
      exact SameCourse.refl s
    | some c =>
      unfold State.cancelFrom at run
      obtain ⟨client, _, run⟩ := Run.except_bind run
      exact (pthreadCancel_course s c).trans (ih _ _ _ run)

theorem turned_goto {middle : State} {events : List Event} (running : s.threads c = some thread)
    (created : middle.created = s.created) (pcs : ∀ d, middle.pcOf d = s.pcOf d) (num : middle.numClientThreads = s.numClientThreads + (next.weight - thread.pc.weight))
    (accepting : middle.acceptingClients = s.acceptingClients) (main : middle.main = s.main)
    (log : middle.log = s.log ++ events) : Turned s (middle.goto c thread next) c thread.pc next events := by
  refine ⟨created, ?_, ?_, num, accepting, main, log⟩
  · rw [State.pcOf, running]
    rfl
  · intro d
    by_cases here : d = c
    · subst here
      rw [if_pos rfl]
      simp [State.pcOf, State.goto]
    · rw [if_neg here, ← pcs d]
      simp [State.pcOf, State.goto, here]

theorem SameCourse.turned {middle : State} (same : SameCourse s middle) (running : s.threads c = some thread)
    (weight : next.weight = thread.pc.weight) : Turned s (middle.goto c thread next) c thread.pc next [] := by
  refine turned_goto running same.created same.pcs ?_ same.accepting same.main ?_
  · rw [same.num, weight]
    omega
  · rw [same.log, List.append_nil]

theorem clientControlWait_turned (running : s.threads c = some thread) (waits : thread.pc = .ready ∨ thread.pc = .blocked) :
    ∃ next events, Turn s c thread.pc next events ∧
      Turned s (s.clientControlWait c thread) c thread.pc next events := by
  have weight : thread.pc.weight = 1 := by
    rcases waits with isPc | isPc
    · rw [isPc]
      rfl
    · rw [isPc]
      rfl
  unfold State.clientControlWait
  cases stopped : s.stopped with
  | true => exact ⟨.blocked, [], .block waits stopped, (SameCourse.refl s).turned running weight.symm⟩
  | false =>
    refine ⟨.calling, [.test c], .pass waits stopped, turned_goto running rfl (fun _ => rfl) ?_ rfl rfl rfl⟩
    rw [weight]
    exact (Int.add_zero _).symm

theorem runClient_turned {served : Bool} (run : s.runClient c served = .ok (some s')) :
    ∃ pc next events, Turn s c pc next events ∧ Turned s s' c pc next events := by
  have still := SameCourse.refl s
  unfold State.runClient at run
  cases running : s.threads c with
  | none =>
    rw [running] at run
    cases run
  | some thread =>
    rw [running] at run
    obtain ⟨pc, cancelled⟩ := thread
    cases pc with
    | start =>
      cases run
      by_cases closed : s.acceptingClients = 0
      · rw [if_pos closed]
        exact ⟨_, _, _, .refuse closed, still.turned running rfl⟩
      · rw [if_neg closed]
        exact ⟨_, _, _, .accept closed, still.turned running rfl⟩
    | admitted =>
      cases run
      exact ⟨_, _, _, .count, turned_goto running rfl (fun _ => rfl) rfl rfl rfl (List.append_nil _).symm⟩
    | counted =>
      obtain ⟨middle, insert, run⟩ := Run.except_bind run
      cases run
      exact ⟨_, _, _, .insert, (insertClient_course insert).turned running rfl⟩
    | serving =>
      cases run
      cases served with
      | true => exact ⟨_, _, _, .serve, still.turned running rfl⟩
      | false => exact ⟨_, _, _, .disconnect, still.turned running rfl⟩
    | ready =>
      cases run
      obtain ⟨next, events, turn, turned⟩ := clientControlWait_turned running (Or.inl rfl)
      exact ⟨_, _, _, turn, turned⟩
    | blocked =>
      cases run
      obtain ⟨next, events, turn, turned⟩ := clientControlWait_turned running (Or.inr rfl)
      exact ⟨_, _, _, turn, turned⟩
    | calling =>
      cases run
      exact ⟨_, _, _, .call, turned_goto running rfl (fun _ => rfl) (Int.add_zero _).symm rfl rfl rfl⟩
    | interpreting =>
      cases run
      exact ⟨_, _, _, .answer, still.turned running rfl⟩
    | leaving =>
      obtain ⟨middle, unlink, run⟩ := Run.except_bind run
      cases run
      exact ⟨_, _, _, .unlink, (unlinkClient_course unlink).turned running rfl⟩
    | unlinked =>
      obtain ⟨middle, destroy, run⟩ := Run.except_bind run
      cases run
      have same := clientDestructor_course destroy
      refine ⟨_, _, _, .destroy, turned_goto running same.created same.pcs same.num same.accepting same.main ?_⟩
      rw [same.log, List.append_nil]
    | terminated => cases run

theorem actOnCancel_turned (run : s.actOnCancel c = some s') :
    ∃ pc next events, Turn s c pc next events ∧ Turned s s' c pc next events := by
  unfold State.actOnCancel at run
  cases running : s.threads c with
  | none =>
    rw [running] at run
    cases run
  | some thread =>
    rw [running] at run
    have run : (if thread.cancelled ∧ thread.pc.cancellationPoint then some (s.goto c thread .leaving) else none) = some s' :=
      run
    by_cases acts : thread.cancelled ∧ thread.pc.cancellationPoint
    · rw [if_pos acts] at run
      obtain rfl := Option.some.inj run
      refine ⟨_, _, _, .cancel acts.2, (SameCourse.refl s).turned running ?_⟩
      cases isPc : thread.pc with
      | serving => rfl
      | blocked => rfl
      | interpreting => rfl
      | _ => simp [isPc, Pc.cancellationPoint] at acts
    · rw [if_neg acts] at run
      cases run

/-- The steps of `main`. -/
inductive MainTurn (s s' : State) : Prop
  | command : s.main = .commands → s'.main = .commands ∨ s'.main = .closing → s'.created = s.created →
      (∀ c, s'.pcOf c = s.pcOf c) → s'.numClientThreads = s.numClientThreads → s'.acceptingClients = s.acceptingClients →
      s'.log = s.log ∨ s'.log = s.log ++ [.stop] ∨ s'.log = s.log ++ [.release] → MainTurn s s'
  | refuse : s.main = .closing → s' = { s with acceptingClients := 0, main := .refusing } → MainTurn s s'
  | delete : s.main = .refusing → SameCourse s { s' with main := s.main } → s'.main = .waiting → MainTurn s s'
  | leave : s.main = .waiting → s.numClientThreads ≤ 0 → s' = { s with main := .cleaning } → MainTurn s s'
  | clean : s.main = .cleaning → s' = { s with main := .cleaned, log := s.log ++ [.cleanup] } → MainTurn s s'

theorem runMain_turned {command : MainCommand} (run : s.runMain command = .ok (some s')) : MainTurn s s' := by
  unfold State.runMain at run
  cases isMain : s.main with
  | commands =>
    rw [isMain] at run
    cases command with
    | stop =>
      cases run
      exact .command isMain (Or.inl rfl) rfl (fun _ => rfl) rfl rfl (Or.inr (Or.inl rfl))
    | go =>
      cases run
      exact .command isMain (Or.inl rfl) rfl (fun _ => rfl) rfl rfl (Or.inr (Or.inr rfl))
    | print =>
      cases run
      exact .command isMain (Or.inl isMain) rfl (fun _ => rfl) rfl rfl (Or.inl rfl)
    | eof =>
      cases run
      exact .command isMain (Or.inr rfl) rfl (fun _ => rfl) rfl rfl (Or.inl rfl)
  | closing =>
    rw [isMain] at run
    cases run
    exact .refuse isMain rfl
  | refusing =>
    rw [isMain] at run
    obtain ⟨middle, delete, run⟩ := Run.except_bind run
    cases run
    have same := cancelFrom_course _ _ _ _ delete
    exact .delete isMain ⟨same.created, same.pcs, same.num, same.accepting, rfl, same.log⟩ rfl
  | waiting =>
    rw [isMain] at run
    by_cases busy : s.numClientThreads > 0
    · rw [if_pos busy] at run
      cases run
    · rw [if_neg busy] at run
      cases run
      exact .leave isMain (by omega) rfl
  | cleaning =>
    rw [isMain] at run
    cases run
    exact .clean isMain rfl
  | cleaned =>
    rw [isMain] at run
    cases run

/-! ### The counter -/

/-- `num_client_threads` is the number of the threads that count. -/
def Tallied (s : State) : Prop :=
  ∃ members : Finset ClientId, (∀ c, c ∈ members ↔ ∃ pc, s.pcOf c = some pc ∧ pc.counts = true) ∧
    s.numClientThreads = members.card

theorem Tallied.same (tallied : Tallied s) (pcs : ∀ c, s'.pcOf c = s.pcOf c)
    (num : s'.numClientThreads = s.numClientThreads) : Tallied s' := by
  obtain ⟨members, isMember, count⟩ := tallied
  refine ⟨members, fun c => ?_, num.trans count⟩
  rw [pcs c]
  exact isMember c

theorem Tallied.turned {events : List Event} (tallied : Tallied s) (turned : Turned s s' c pc next events) : Tallied s' := by
  obtain ⟨members, isMember, count⟩ := tallied
  have others : ∀ d, d ≠ c → ((∃ pc, s'.pcOf d = some pc ∧ pc.counts = true) ↔ d ∈ members) := by
    intro d different
    rw [turned.pcs d, if_neg different]
    exact (isMember d).symm
  have here : (∃ pc, s'.pcOf c = some pc ∧ pc.counts = true) ↔ next.counts = true := by
    rw [turned.pcs c, if_pos rfl]
    simp
  have before : c ∈ members ↔ pc.counts = true := by
    rw [isMember c, turned.was]
    simp
  have num := turned.num
  simp only [Pc.weight] at num
  by_cases counts : next.counts = true
  · refine ⟨insert c members, fun d => ?_, ?_⟩
    · by_cases isC : d = c
      · subst isC
        simp [here, counts]
      · rw [others d isC, Finset.mem_insert]
        simp [isC]
    · by_cases counted : pc.counts = true
      · rw [Finset.insert_eq_of_mem (before.mpr counted), num, count, if_pos counts, if_pos counted]
        omega
      · rw [Finset.card_insert_of_notMem (mt before.mp counted), num, count, if_pos counts, if_neg counted]
        omega
  · refine ⟨members.erase c, fun d => ?_, ?_⟩
    · by_cases isC : d = c
      · subst isC
        simp [here, counts]
      · rw [others d isC, Finset.mem_erase]
        simp [isC]
    · by_cases counted : pc.counts = true
      · have member := before.mpr counted
        have positive := Finset.card_pos.mpr ⟨c, member⟩
        rw [Finset.card_erase_of_mem member, num, count, if_neg counts, if_pos counted]
        omega
      · rw [Finset.erase_eq_of_notMem (mt before.mp counted), num, count, if_neg counts, if_neg counted]
        omega

theorem Tallied.none (tallied : Tallied s) (down : s.numClientThreads ≤ 0) (found : s.pcOf c = some pc) :
    pc.counts = false := by
  obtain ⟨members, isMember, count⟩ := tallied
  have empty : members = ∅ := by
    apply Finset.card_eq_zero.mp
    omega
  by_contra counts
  have member := (isMember c).mpr ⟨pc, found, by simpa using counts⟩
  rw [empty] at member
  cases member

/-! ### Calls after the cleanup -/

/-- No command is interpreted after the cleanup has started. -/
def NoLateCall (log : List Event) : Prop :=
  ∀ before after, log = before ++ .cleanup :: after → ∀ c, Event.interpret c ∉ after

theorem NoLateCall.append {log : List Event} {event : Event} (noLate : NoLateCall log)
    (harmless : Event.cleanup ∉ log ∨ ∀ c, event ≠ .interpret c) : NoLateCall (log ++ [event]) := by
  intro before after split c member
  rcases List.eq_nil_or_concat after with rfl | ⟨front, last, rfl⟩
  · cases member
  · rw [List.concat_eq_append] at split member
    rw [← List.cons_append, ← List.append_assoc] at split
    obtain ⟨isLog, isLast⟩ := List.append_inj' split rfl
    obtain rfl : event = last := by simpa using isLast
    rcases List.mem_append.mp member with inFront | isEvent
    · exact noLate before front isLog c inFront
    · rcases harmless with absent | other
      · apply absent
        rw [isLog]
        simp
      · exact other c (List.mem_singleton.mp isEvent).symm

/-- When `main` stops waiting, no client thread is between its test of `accepting_clients` and the
section that counts it. -/
def Settled (s : State) (action : Action) : Prop :=
  match action with
  | .main _ => s.main = .waiting → s.numClientThreads ≤ 0 → ∀ c < s.created, s.pcOf c ≠ some .admitted
  | _ => True

instance (s : State) (action : Action) : Decidable (Settled s action) :=
  match action with
  | .main _ => inferInstanceAs (Decidable (s.main = .waiting → s.numClientThreads ≤ 0 →
      ∀ c < s.created, s.pcOf c ≠ some .admitted))
  | .connect => isTrue trivial
  | .detach => isTrue trivial
  | .client _ _ => isTrue trivial
  | .cancel _ => isTrue trivial
  | .sigint => isTrue trivial

structure Orderly (s : State) : Prop where
  fresh : ∀ c, s.created ≤ c → s.pcOf c = none
  tallied : Tallied s
  closed : s.main ≠ .commands → s.main ≠ .closing → s.acceptingClients = 0
  quiet : s.main = .cleaning ∨ s.main = .cleaned → ∀ c pc, s.pcOf c = some pc → pc = .start ∨ pc = .terminated
  cleaned : Event.cleanup ∈ s.log → s.main = .cleaned
  noLate : NoLateCall s.log

theorem orderly_initial : Orderly State.initial := by
  refine ⟨fun _ _ => rfl, ⟨∅, fun c => ?_, rfl⟩, ?_, ?_, ?_, ?_⟩
  · simp [State.pcOf, State.initial]
  · exact fun impossible => absurd rfl impossible
  · exact fun _ c pc found => by cases found
  · exact fun member => by cases member
  · intro before after split
    exact absurd split.symm (by simp [State.initial])

theorem Orderly.same (orderly : Orderly s) (same : SameCourse s s') : Orderly s' := by
  refine ⟨?_, orderly.tallied.same same.pcs same.num, ?_, ?_, ?_, ?_⟩
  · intro c unused
    rw [same.pcs c]
    exact orderly.fresh c (same.created ▸ unused)
  · rw [same.main, same.accepting]
    exact orderly.closed
  · rw [same.main]
    intro ended c pc found
    rw [same.pcs c] at found
    exact orderly.quiet ended c pc found
  · rw [same.main, same.log]
    exact orderly.cleaned
  · rw [same.log]
    exact orderly.noLate

theorem Orderly.turned {events : List Event} (orderly : Orderly s) (turn : Turn s c pc next events)
    (turned : Turned s s' c pc next events) : Orderly s' := by
  have running : ¬(s.main = .cleaning ∨ s.main = .cleaned) ∨ s.acceptingClients = 0 ∧ (pc = .start ∨ pc = .terminated) := by
    by_cases ended : s.main = .cleaning ∨ s.main = .cleaned
    · right
      refine ⟨orderly.closed ?_ ?_, orderly.quiet ended c pc turned.was⟩
      · rcases ended with isMain | isMain <;> simp [isMain]
      · rcases ended with isMain | isMain <;> simp [isMain]
    · exact Or.inl ended
  refine ⟨?_, orderly.tallied.turned turned, ?_, ?_, ?_, ?_⟩
  · intro d unused
    rw [turned.created] at unused
    have unknown := orderly.fresh d unused
    have different : d ≠ c := by
      rintro rfl
      rw [turned.was] at unknown
      cases unknown
    rw [turned.pcs d, if_neg different]
    exact unknown
  · rw [turned.main, turned.accepting]
    exact orderly.closed
  · rw [turned.main]
    intro ended d dPc found
    rw [turned.pcs d] at found
    by_cases isC : d = c
    · rw [if_pos isC] at found
      obtain rfl := Option.some.inj found
      -- The only step that is left to a thread then is to be refused.
      rcases running with early | ⟨closed, isPc⟩
      · exact absurd ended early
      · cases turn with
        | refuse _ => exact Or.inr rfl
        | accept opened => exact absurd closed opened
        | block waits _ => rcases isPc with rfl | rfl <;> simp at waits
        | pass waits _ => rcases isPc with rfl | rfl <;> simp at waits
        | cancel point => rcases isPc with rfl | rfl <;> cases point
        | _ => simp at isPc
    · rw [if_neg isC] at found
      exact orderly.quiet ended d dPc found
  · rw [turned.main, turned.log]
    intro member
    rcases List.mem_append.mp member with old | new
    · exact orderly.cleaned old
    · cases turn <;> simp at new
  · rw [turned.log]
    have early : pc = .calling → Event.cleanup ∉ s.log := by
      rintro isPc member
      rcases running with before | ⟨_, done⟩
      · exact before (Or.inr (orderly.cleaned member))
      · rw [isPc] at done
        simp at done
    cases turn with
    | call => exact orderly.noLate.append (Or.inl (early rfl))
    | pass _ _ => exact orderly.noLate.append (Or.inr fun d same => by cases same)
    | _ =>
      rw [List.append_nil]
      exact orderly.noLate

theorem Orderly.main_turned (orderly : Orderly s) (turn : MainTurn s s')
    (settled : s.main = .waiting → s.numClientThreads ≤ 0 → ∀ c < s.created, s.pcOf c ≠ some .admitted) : Orderly s' := by
  have uncleaned : s.main ≠ .cleaned → Event.cleanup ∉ s.log := fun notYet member => notYet (orderly.cleaned member)
  cases turn with
  | command isMain isMain' created pcs num accepting log =>
    have missing := uncleaned (by simp [isMain])
    refine ⟨?_, orderly.tallied.same pcs num, ?_, ?_, ?_, ?_⟩
    · intro c unused
      rw [pcs c]
      exact orderly.fresh c (created ▸ unused)
    · intro notCommands notClosing
      rcases isMain' with commands | closing
      · exact absurd commands notCommands
      · exact absurd closing notClosing
    · intro ended
      rcases isMain' with commands | closing
      · simp [commands] at ended
      · simp [closing] at ended
    · intro member
      rcases log with same | stop | release
      · exact absurd (same ▸ member) missing
      · rw [stop] at member
        simp [missing] at member
      · rw [release] at member
        simp [missing] at member
    · rcases log with same | stop | release
      · rw [same]
        exact orderly.noLate
      · rw [stop]
        exact orderly.noLate.append (Or.inl missing)
      · rw [release]
        exact orderly.noLate.append (Or.inl missing)
  | refuse isMain isNext =>
    subst isNext
    exact ⟨orderly.fresh, orderly.tallied.same (fun _ => rfl) rfl, fun _ _ => rfl, fun ended => by simp at ended,
      fun member => absurd member (uncleaned (by simp [isMain])), orderly.noLate⟩
  | delete isMain same isMain' =>
    have closed := orderly.closed (by simp [isMain]) (by simp [isMain])
    have before := orderly.same same
    refine ⟨before.fresh, before.tallied.same (fun _ => rfl) rfl, fun _ _ => ?_, fun ended => ?_, fun member => ?_, before.noLate⟩
    · exact same.accepting.trans closed
    · simp [isMain'] at ended
    · have isCleaned := before.cleaned member
      simp [isMain] at isCleaned
  | leave isMain down isNext =>
    subst isNext
    have closed := orderly.closed (by simp [isMain]) (by simp [isMain])
    refine ⟨orderly.fresh, orderly.tallied.same (fun _ => rfl) rfl, fun _ _ => closed, ?_,
      fun member => absurd member (uncleaned (by simp [isMain])), orderly.noLate⟩
    -- Threads that count are gone, and none is about to be counted.
    intro _ c pc found
    have found : s.pcOf c = some pc := found
    have known : c < s.created := by
      by_contra unused
      rw [orderly.fresh c (Nat.le_of_not_lt unused)] at found
      cases found
    have uncounted := orderly.tallied.none down found
    have notAdmitted := settled isMain down c known
    rw [found] at notAdmitted
    cases pc with
    | start => exact Or.inl rfl
    | terminated => exact Or.inr rfl
    | admitted => exact absurd rfl notAdmitted
    | _ => cases uncounted
  | clean isMain isNext =>
    subst isNext
    have closed := orderly.closed (by simp [isMain]) (by simp [isMain])
    refine ⟨orderly.fresh, orderly.tallied.same (fun _ => rfl) rfl, fun _ _ => closed, fun _ => orderly.quiet (Or.inl isMain),
      fun _ => rfl, ?_⟩
    exact orderly.noLate.append (Or.inl (uncleaned (by simp [isMain])))

theorem pcOf_clientConstructor (s : State) (c : ClientId) :
    s.clientConstructor.pcOf c = if c = s.created then some .start else s.pcOf c := by
  by_cases new : c = s.created
  · subst new
    simp [State.pcOf, State.clientConstructor]
  · simp [State.pcOf, State.clientConstructor, new]

theorem Tallied.connect (tallied : Tallied s) (fresh : s.pcOf s.created = Option.none) : Tallied s.clientConstructor := by
  obtain ⟨members, isMember, count⟩ := tallied
  refine ⟨members, fun c => ?_, count⟩
  rw [isMember c, pcOf_clientConstructor]
  by_cases new : c = s.created
  · rw [if_pos new, new, fresh]
    simp [Pc.counts]
  · rw [if_neg new]

theorem Orderly.connect (orderly : Orderly s) : Orderly s.clientConstructor := by
  refine ⟨?_, orderly.tallied.connect (orderly.fresh _ (le_refl _)), orderly.closed, ?_, orderly.cleaned, orderly.noLate⟩
  · intro c unused
    have later : s.created < c := unused
    rw [pcOf_clientConstructor, if_neg (ne_of_gt later)]
    exact orderly.fresh c (le_of_lt later)
  · intro ended c pc found
    rw [pcOf_clientConstructor] at found
    by_cases new : c = s.created
    · rw [if_pos new] at found
      exact Or.inl (Option.some.inj found).symm
    · rw [if_neg new] at found
      exact orderly.quiet ended c pc found

theorem Orderly.step {action : Action} (orderly : Orderly s) (settled : Settled s action)
    (run : s.step action = .ok (some s')) : Orderly s' := by
  cases action with
  | connect =>
    by_cases free : s.listener = none
    · simp only [State.step, if_pos free] at run
      cases run
      exact orderly.connect
    · simp only [State.step, if_neg free] at run
      cases run
  | detach =>
    unfold State.step at run
    cases isListener : s.listener with
    | none =>
      simp only [isListener] at run
      cases run
    | some c =>
      simp only [isListener] at run
      obtain ⟨client, _, run⟩ := Run.except_bind run
      cases run
      exact orderly.same ⟨rfl, fun _ => rfl, rfl, rfl, rfl, rfl⟩
  | client c served =>
    obtain ⟨pc, next, events, turn, turned⟩ := runClient_turned run
    exact orderly.turned turn turned
  | cancel c =>
    obtain ⟨pc, next, events, turn, turned⟩ := actOnCancel_turned (Except.ok.inj run)
    exact orderly.turned turn turned
  | sigint =>
    unfold State.step at run
    by_cases isMain : s.main = .commands
    · rw [if_pos isMain] at run
      obtain ⟨middle, delete, run⟩ := Run.except_bind run
      cases run
      exact orderly.same (cancelFrom_course _ _ _ _ delete)
    · rw [if_neg isMain] at run
      cases run
  | main command => exact orderly.main_turned (runMain_turned run) settled

theorem reachable_noLateCall (reachable : Reachable Settled s) : NoLateCall s.log := by
  have orderly : Orderly s := reachable.invariant orderly_initial fun _ _ _ before settled run => before.step settled run
  exact orderly.noLate

/-- A client is served one command and leaves, and `main` waits for it before it cleans up. -/
def servedFirst : List Action :=
  [.connect, .detach] ++ List.replicate 7 (.client 0 true) ++
    [.main .eof, .main .eof, .main .eof, .client 0 false, .client 0 true, .client 0 true, .main .eof, .main .eof]

theorem noLateCall_servedFirst : ∃ s, Transition.follow State.step Settled servedFirst State.initial = some s ∧
    s.log = [.test 0, .interpret 0, .cleanup] ∧ NoLateCall s.log := by
  have run : (Transition.follow State.step Settled servedFirst State.initial).map State.log =
      some [.test 0, .interpret 0, .cleanup] := by decide +kernel
  obtain ⟨s, found, log⟩ := Option.map_eq_some_iff.mp run
  exact ⟨s, found, log, reachable_noLateCall (Transition.follow_reachable .initial found)⟩

/-- A client connects and passes its test, then `main` shuts down up to the loop on the counter. -/
def lateAdmission : List Action :=
  [.connect, .detach, .client 0 true, .main .eof, .main .eof, .main .eof]

/-- The client is counted, put into the list and served after the cleanup. -/
theorem call_after_cleanup : ∃ s, Reachable (fun _ _ => True) s ∧ s.log = [.cleanup, .test 0, .interpret 0] ∧
    ¬NoLateCall s.log := by
  have run : ((Transition.follow State.step (fun _ _ => True) (lateAdmission ++ [.main .eof, .main .eof,
      .client 0 true, .client 0 true, .client 0 true, .client 0 true, .client 0 true]) State.initial).map State.log) =
      some [.cleanup, .test 0, .interpret 0] := by decide +kernel
  obtain ⟨s, found, log⟩ := Option.map_eq_some_iff.mp run
  refine ⟨s, Transition.follow_reachable .initial found, log, fun noLate => ?_⟩
  exact noLate [] [.test 0, .interpret 0] log 0 (by simp)

end Cs1330.Server
