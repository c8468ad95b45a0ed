import Cs1330.Lib.Chain
import Cs1330.Server.Shutdown

/-!
# The client list and the counter

The list and `num_client_threads` are under two mutexes, so they agree only up to the threads that
stand between the two sections of a registration or of a cleanup. `Registered` accounts for them,
whatever the order in which threads come, go and are cancelled.
-/

namespace Cs1330.Server
open Links

variable {s s' : State} {c d : ClientId} {thread : Thread} {pc next : Pc} {l : List ClientId}

/-! ### Interleavings -/

/-- As `State.step`, for a listener that can always take the next connection, and for calls of
`delete_all` at any time. -/
def State.anyStep (s : State) : Action → Except Fault (Option State)
  | .connect => return some s.clientConstructor
  | .detach => return some { s with listener := none }
  | .client c served => s.runClient c served
  | .cancel c => return s.actOnCancel c
  | .sigint => do return some (← s.deleteAll)
  | .main command => s.runMain command

def Interleaved : State → Prop := Transition.Reachable State.anyStep State.initial fun _ _ => True

/-- The thread has executed the section that inserts its client and not yet the one that unlinks it. -/
def Pc.listed : Pc → Bool
  | .serving | .ready | .blocked | .calling | .interpreting | .leaving => true
  | _ => false

/-- The thread has not come to the section that inserts its client. -/
def Pc.early : Pc → Bool
  | .start | .admitted | .counted => true
  | _ => false

def State.prevOf (s : State) (c : ClientId) : Option ClientId := (s.clients c).bind Client.prev

def State.nextOf (s : State) (c : ClientId) : Option ClientId := (s.clients c).bind Client.next

/-- How many threads stand at `pc`. -/
def State.standing (s : State) (pc : Pc) : Nat := ((Finset.range s.created).filter fun c => s.pcOf c = some pc).card

structure Registry (s : State) (l : List ClientId) : Prop where
  head : s.threadListHead = l.head?
  linked : Chain s.nextOf s.prevOf none l none
  once : l.Nodup
  members : ∀ c, c ∈ l ↔ ∃ pc, s.pcOf c = some pc ∧ pc.listed = true
  live : ∀ c ∈ l, s.clients c ≠ none
  count : s.numClientThreads = l.length + s.standing .counted + s.standing .unlinked

/-! ### The sections -/

/-- The records between the list operations: the same ones, with other links. -/
structure Relinked (s s' : State) (nextOf prevOf : ClientId → Option ClientId) : Prop where
  next : ∀ d, s'.nextOf d = nextOf d
  prev : ∀ d, s'.prevOf d = prevOf d
  live : ∀ d, s'.clients d = none ↔ s.clients d = none
  listener : s'.listener = s.listener

theorem setClient_runs {client : Client} (found : s.clients c = some client) (change : Client → Client) :
    ∃ s', s.setClient c change = .ok s' ∧ s'.threadListHead = s.threadListHead ∧
      Relinked s s' (fun d => if d = c then (change client).next else s.nextOf d)
        (fun d => if d = c then (change client).prev else s.prevOf d) := by
  refine ⟨{ s with clients := Function.update s.clients c (some (change client)) }, ?_, rfl, ?_, ?_, ?_, rfl⟩
  · unfold State.setClient State.getClient
    rw [found]
    rfl
  · intro d
    by_cases here : d = c
    · simp [State.nextOf, here]
    · simp [State.nextOf, here]
  · intro d
    by_cases here : d = c
    · simp [State.prevOf, here]
    · simp [State.prevOf, here]
  · intro d
    by_cases here : d = c
    · simp [here, found]
    · simp [here]

theorem setClient_next {client : Client} (found : s.clients c = some client) (target : Option ClientId) :
    ∃ s', s.setClient c (fun client => { client with next := target }) = .ok s' ∧
      s'.threadListHead = s.threadListHead ∧
      Relinked s s' (fun d => if d = c then target else s.nextOf d) s.prevOf := by
  obtain ⟨s', run, head, linked⟩ := setClient_runs found fun client => { client with next := target }
  refine ⟨s', run, head, linked.next, ?_, linked.live, linked.listener⟩
  intro d
  rw [linked.prev d]
  by_cases here : d = c
  · simp [here, State.prevOf, found]
  · simp [here]

theorem setClient_prev {client : Client} (found : s.clients c = some client) (target : Option ClientId) :
    ∃ s', s.setClient c (fun client => { client with prev := target }) = .ok s' ∧
      s'.threadListHead = s.threadListHead ∧
      Relinked s s' s.nextOf (fun d => if d = c then target else s.prevOf d) := by
  obtain ⟨s', run, head, linked⟩ := setClient_runs found fun client => { client with prev := target }
  refine ⟨s', run, head, ?_, linked.prev, linked.live, linked.listener⟩
  intro d
  rw [linked.next d]
  by_cases here : d = c
  · simp [here, State.nextOf, found]
  · simp [here]

theorem exists_client (live : s.clients c ≠ none) : ∃ client, s.clients c = some client :=
  Option.ne_none_iff_exists'.mp live

theorem insertClient_runs (live : s.clients c ≠ none) (headLive : ∀ d ∈ s.threadListHead, s.clients d ≠ none) :
    ∃ s', s.insertClient c = .ok s' ∧ s'.threadListHead = some c ∧
      Relinked s s' (fun d => if d = c then s.threadListHead else s.nextOf d)
        (fun d => if s.threadListHead = some d then some c else s.prevOf d) := by
  obtain ⟨client, found⟩ := exists_client live
  obtain ⟨s₁, first, _, linked⟩ := setClient_next found s.threadListHead
  unfold State.insertClient
  cases head : s.threadListHead with
  | none =>
    rw [head] at first linked
    refine ⟨{ s₁ with threadListHead := some c }, ?_, rfl, linked.next, ?_, linked.live, linked.listener⟩
    · simp only [first]
      rfl
    · intro d
      exact (linked.prev d).trans (by simp)
  | some old =>
    rw [head] at first linked
    obtain ⟨oldClient, oldFound⟩ := exists_client (s := s₁) (c := old) (by rw [ne_eq, linked.live]; exact headLive old head)
    obtain ⟨s₂, second, _, relinked⟩ := setClient_prev oldFound (some c)
    refine ⟨{ s₂ with threadListHead := some c }, ?_, rfl, ?_, ?_, ?_, relinked.listener.trans linked.listener⟩
    · simp only [first]
      show (do
        let s ← s₁.setClient old fun client => { client with prev := some c }
        return { s with threadListHead := some c } : Except Fault State) = _
      rw [second]
      rfl
    · intro d
      exact (relinked.next d).trans (linked.next d)
    · intro d
      apply (relinked.prev d).trans
      simp only [linked.prev d, Option.some.injEq, eq_comm]
    · intro d
      exact (relinked.live d).trans (linked.live d)

theorem getClient_runs (live : s.clients c ≠ none) :
    s.getClient c = .ok ⟨s.prevOf c, s.nextOf c⟩ := by
  obtain ⟨client, found⟩ := exists_client live
  simp [State.getClient, State.prevOf, State.nextOf, found]

theorem unlinkPrev_runs (live : s.clients c ≠ none) (prevLive : ∀ d ∈ s.prevOf c, s.clients d ≠ none) :
    ∃ s', s.unlinkPrev c = .ok s' ∧
      s'.threadListHead = (if s.prevOf c = none then s.nextOf c else s.threadListHead) ∧
      Relinked s s' (fun d => if s.prevOf c = some d then s.nextOf c else s.nextOf d) s.prevOf := by
  unfold State.unlinkPrev
  rw [getClient_runs live]
  cases isPrev : s.prevOf c with
  | none =>
    refine ⟨{ s with threadListHead := s.nextOf c }, rfl, rfl, ?_, fun _ => rfl, fun _ => Iff.rfl, rfl⟩
    intro d
    simp [State.nextOf]
  | some other =>
    obtain ⟨client, found⟩ := exists_client (prevLive other isPrev)
    obtain ⟨s', run, head, linked⟩ := setClient_next found (s.nextOf c)
    refine ⟨s', run, by simpa using head, ?_, linked.prev, linked.live, linked.listener⟩
    intro d
    apply (linked.next d).trans
    simp only [Option.some.injEq, eq_comm]

theorem unlinkClient_runs (live : s.clients c ≠ none) (prevLive : ∀ d ∈ s.prevOf c, s.clients d ≠ none)
    (nextLive : ∀ d ∈ s.nextOf c, s.clients d ≠ none) (apart : s.nextOf c ≠ some c) :
    ∃ s', s.unlinkClient c = .ok s' ∧
      s'.threadListHead = (if s.prevOf c = none then s.nextOf c else s.threadListHead) ∧
      Relinked s s' (fun d => if s.prevOf c = some d then s.nextOf c else s.nextOf d)
        (fun d => if s.nextOf c = some d then s.prevOf c else s.prevOf d) := by
  unfold State.unlinkClient
  rw [getClient_runs live]
  cases isNext : s.nextOf c with
  | none =>
    obtain ⟨s', run, head, linked⟩ := unlinkPrev_runs live prevLive
    rw [isNext] at head linked
    refine ⟨s', run, head, linked.next, ?_, linked.live, linked.listener⟩
    intro d
    exact (linked.prev d).trans (by simp)
  | some other =>
    obtain ⟨client, found⟩ := exists_client (nextLive other isNext)
    obtain ⟨s₁, first, head, linked⟩ := setClient_prev found (s.prevOf c)
    have different : c ≠ other := by
      rintro rfl
      exact apart isNext
    have keptPrev : s₁.prevOf c = s.prevOf c := (linked.prev c).trans (if_neg different)
    have keptNext : s₁.nextOf c = some other := (linked.next c).trans isNext
    obtain ⟨s', run, newHead, relinked⟩ := unlinkPrev_runs (s := s₁) (c := c) (by rw [ne_eq, linked.live]; exact live)
      (by
        intro d isPrev
        rw [ne_eq, linked.live]
        exact prevLive d (keptPrev ▸ isPrev))
    rw [keptPrev, keptNext] at newHead relinked
    refine ⟨s', ?_, by rw [newHead, head], ?_, ?_, ?_, relinked.listener.trans linked.listener⟩
    · show (do
        let s ← s.setClient other fun client => { client with prev := s.prevOf c }
        s.unlinkPrev c : Except Fault State) = _
      rw [first]
      exact run
    · intro d
      rw [relinked.next d, linked.next d]
    · intro d
      rw [relinked.prev d, linked.prev d]
      simp only [Option.some.injEq, eq_comm]
    · intro d
      exact (relinked.live d).trans (linked.live d)

/-! ### The whole list -/

/-- What is true of the list and the records between two steps. -/
structure Registered (s : State) (l : List ClientId) : Prop where
  head : s.threadListHead = l.head?
  linked : Chain s.nextOf s.prevOf none l none
  once : l.Nodup
  members : ∀ c, c ∈ l ↔ ∃ pc, s.pcOf c = some pc ∧ pc.listed = true
  live : ∀ c pc, s.pcOf c = some pc → pc ≠ .terminated → s.clients c ≠ none
  -- `run_client` does not set `client->prev`
  unlinked : ∀ c pc, s.pcOf c = some pc → pc.early = true → s.prevOf c = none
  bounded : ∀ c, s.created ≤ c → s.pcOf c = none
  tallied : Tallied s

theorem registered_initial : Registered State.initial [] := by
  refine ⟨rfl, trivial, List.nodup_nil, ?_, ?_, ?_, fun _ _ => rfl, orderly_initial.tallied⟩
  · intro c
    simp [State.pcOf, State.initial]
  · intro c pc found
    cases found
  · intro c pc found
    cases found

theorem Registered.member_live (registered : Registered s l) (member : c ∈ l) : s.clients c ≠ none := by
  obtain ⟨pc, found, listed⟩ := (registered.members c).mp member
  apply registered.live c pc found
  rintro rfl
  cases listed

theorem Registered.absent (registered : Registered s l) (found : s.pcOf c = some pc) (unlisted : pc.listed = false) : c ∉ l := by
  intro member
  obtain ⟨e, again, listed⟩ := (registered.members c).mp member
  obtain rfl := Option.some.inj (found.symm.trans again)
  rw [unlisted] at listed
  cases listed

theorem Registered.early_absent (registered : Registered s l) (found : s.pcOf c = some pc) (early : pc.early = true) :
    c ∉ l := by
  apply registered.absent found
  cases pc <;> simp_all [Pc.early, Pc.listed]

theorem Registered.same (registered : Registered s l) (created : s'.created = s.created)
    (pcs : ∀ c, s'.pcOf c = s.pcOf c) (num : s'.numClientThreads = s.numClientThreads)
    (clients : s'.clients = s.clients) (head : s'.threadListHead = s.threadListHead) : Registered s' l := by
  have next : s'.nextOf = s.nextOf := by
    funext c
    rw [State.nextOf, State.nextOf, clients]
  have prev : s'.prevOf = s.prevOf := by
    funext c
    rw [State.prevOf, State.prevOf, clients]
  refine ⟨head.trans registered.head, ?_, registered.once, ?_, ?_, ?_, ?_, registered.tallied.same pcs num⟩
  · rw [next, prev]
    exact registered.linked
  · intro c
    rw [pcs c]
    exact registered.members c
  · intro c pc found
    rw [pcs c] at found
    rw [clients]
    exact registered.live c pc found
  · intro c pc found
    rw [pcs c] at found
    rw [prev]
    exact registered.unlinked c pc found
  · intro c unused
    rw [pcs c]
    exact registered.bounded c (created ▸ unused)

theorem Registered.turned {l' : List ClientId} {events : List Event} (registered : Registered s l)
    (turned : Turned s s' c pc next events) (head : s'.threadListHead = l'.head?)
    (linked : Chain s'.nextOf s'.prevOf none l' none) (once : l'.Nodup)
    (members : ∀ d, d ∈ l' ↔ (d = c ∧ next.listed = true) ∨ (d ≠ c ∧ d ∈ l))
    (live : ∀ d, (d = c → next ≠ .terminated) → s.clients d ≠ none → s'.clients d ≠ none)
    (started : pc ≠ .terminated) (early : next.early = true → pc.early = true)
    (unlinked : ∀ d e, s.pcOf d = some e → e.early = true → (d = c → next.early = true) → s'.prevOf d = s.prevOf d) :
    Registered s' l' := by
  refine ⟨head, linked, once, ?_, ?_, ?_, ?_, registered.tallied.turned turned⟩
  · intro d
    rw [members d, turned.pcs d]
    by_cases here : d = c
    · simp [here]
    · simp [here, registered.members d]
  · intro d e found running
    rw [turned.pcs d] at found
    by_cases here : d = c
    · rw [if_pos here] at found
      obtain rfl := Option.some.inj found
      exact live d (fun _ => running) (registered.live d pc (here ▸ turned.was) started)
    · rw [if_neg here] at found
      exact live d (fun same => absurd same here) (registered.live d e found running)
  · intro d e found isEarly
    rw [turned.pcs d] at found
    by_cases here : d = c
    · rw [if_pos here] at found
      obtain rfl := Option.some.inj found
      have was := early isEarly
      rw [unlinked d pc (here ▸ turned.was) was fun _ => isEarly]
      exact registered.unlinked d pc (here ▸ turned.was) was
    · rw [if_neg here] at found
      rw [unlinked d e found isEarly fun same => absurd same here]
      exact registered.unlinked d e found isEarly
  · intro d unused
    rw [turned.created] at unused
    have unknown := registered.bounded d unused
    have different : d ≠ c := by
      rintro rfl
      rw [turned.was] at unknown
      cases unknown
    rw [turned.pcs d, if_neg different]
    exact unknown

/-- A move from `pc` to `next` is neither an insertion nor an unlinking, nor a start. -/
def Pc.keepsPlace (pc next : Pc) : Bool := next.listed == pc.listed && pc != .terminated && (!next.early || pc.early)

theorem Pc.keepsPlace_iff : pc.keepsPlace next = true ↔
    next.listed = pc.listed ∧ pc ≠ .terminated ∧ (next.early = true → pc.early = true) := by
  cases next <;> cases pc <;> decide

theorem Registered.move {events : List Event} (registered : Registered s l) (turned : Turned s s' c pc next events)
    (clients : s'.clients = s.clients) (head : s'.threadListHead = s.threadListHead)
    (plain : pc.keepsPlace next = true) : Registered s' l := by
  obtain ⟨listed, started, early⟩ := Pc.keepsPlace_iff.mp plain
  have next' : s'.nextOf = s.nextOf := by
    funext d
    rw [State.nextOf, State.nextOf, clients]
  have prev' : s'.prevOf = s.prevOf := by
    funext d
    rw [State.prevOf, State.prevOf, clients]
  refine registered.turned turned (head.trans registered.head) ?_ registered.once ?_ ?_ started early ?_
  · rw [next', prev']
    exact registered.linked
  · intro d
    by_cases here : d = c
    · subst here
      simp [registered.members d, turned.was, listed]
    · simp [here]
  · intro d _ alive
    rwa [clients]
  · intro d e _ _ _
    rw [prev']

theorem Registered.insert (registered : Registered s l) (running : s.threads c = some thread)
    (isPc : thread.pc = .counted) :
    ∃ middle, s.insertClient c = .ok middle ∧ middle.listener = s.listener ∧
      Registered (middle.goto c thread .serving) (c :: l) := by
  have was : s.pcOf c = some .counted := by rw [State.pcOf, running, ← isPc]; rfl
  have absent := registered.early_absent was rfl
  have headLive : ∀ d ∈ s.threadListHead, s.clients d ≠ none := by
    intro d isHead
    rw [registered.head] at isHead
    exact registered.member_live (List.mem_of_head? isHead)
  obtain ⟨middle, run, head, linked⟩ := insertClient_runs (registered.live c _ was (by decide)) headLive
  have different : ∀ d ∈ l, d ≠ c := by
    rintro d member rfl
    exact absent member
  have turned : Turned s (middle.goto c thread .serving) c thread.pc .serving [] :=
    (insertClient_course run).turned running (by rw [isPc]; rfl)
  rw [isPc] at turned
  refine ⟨middle, run, linked.listener, registered.turned turned head ?_ (List.nodup_cons.mpr ⟨absent, registered.once⟩) ?_ ?_ (by decide)
    (fun _ => rfl) ?_⟩
  · apply registered.linked.push registered.once
    · apply (linked.prev c).trans
      rw [if_neg, registered.unlinked c _ was rfl]
      rw [registered.head]
      exact fun isHead => absent (List.mem_of_head? isHead)
    · apply (linked.next c).trans
      rw [if_pos rfl, registered.head]
    · intro d isHead
      apply (linked.prev d).trans
      rw [registered.head]
      exact if_pos isHead
    · intro d member
      exact (linked.next d).trans (if_neg (different d member))
    · intro d member notHead
      apply (linked.prev d).trans
      rw [registered.head]
      exact if_neg notHead
  · intro d
    by_cases here : d = c
    · simp [here, Pc.listed]
    · simp [here]
  · intro d _ alive
    exact mt (linked.live d).mp alive
  · intro d e found early notHere
    refine (linked.prev d).trans (if_neg ?_)
    intro isHead
    rw [registered.head] at isHead
    exact registered.early_absent found early (List.mem_of_head? isHead)

theorem Registered.unlink (registered : Registered s l) (running : s.threads c = some thread)
    (isPc : thread.pc = .leaving) :
    ∃ middle, s.unlinkClient c = .ok middle ∧ middle.listener = s.listener ∧
      Registered (middle.goto c thread .unlinked) (l.erase c) := by
  have was : s.pcOf c = some .leaving := by rw [State.pcOf, running, ← isPc]; rfl
  have member : c ∈ l := (registered.members c).mpr ⟨_, was, rfl⟩
  obtain ⟨xs, ys, split⟩ := List.append_of_mem member
  have chain := registered.linked
  have once := registered.once
  rw [split] at chain once
  obtain ⟨isPrev, isNext⟩ := chain.neighbours
  obtain ⟨_, restOnce, apart⟩ := List.nodup_append.mp once
  have erased : l.erase c = xs ++ ys := by
    rw [split, List.erase_append_right _ fun inFront => apart c inFront c List.mem_cons_self rfl, List.erase_cons_head]
  have prevMember : ∀ d ∈ s.prevOf c, d ∈ l := by
    intro d found
    rw [isPrev] at found
    rw [split]
    exact List.mem_append_left _ (List.mem_of_getLast? found)
  have nextMember : ∀ d ∈ s.nextOf c, d ∈ ys := by
    intro d found
    rw [isNext] at found
    exact List.mem_of_head? found
  have nextLive : ∀ d ∈ s.nextOf c, s.clients d ≠ none := by
    intro d found
    apply registered.member_live
    rw [split]
    exact List.mem_append_right _ (List.mem_cons_of_mem _ (nextMember d found))
  obtain ⟨middle, run, head, linked⟩ := unlinkClient_runs (registered.live c _ was (by decide))
    (fun d found => registered.member_live (prevMember d found)) nextLive
    (fun same => (List.nodup_cons.mp restOnce).1 (nextMember c same))
  have turned : Turned s (middle.goto c thread .unlinked) c thread.pc .unlinked [] :=
    (unlinkClient_course run).turned running (by rw [isPc]; rfl)
  rw [isPc] at turned
  refine ⟨middle, run, linked.listener, registered.turned turned ?_ ?_ (registered.once.erase c) ?_ ?_ (by decide) (by decide) ?_⟩
  · rw [erased]
    apply head.trans
    rw [isPrev, isNext, registered.head, split]
    cases xs with
    | nil => rfl
    | cons x xs => simp
  · rw [erased]
    apply chain.unlink once
    · intro d found
      exact (linked.prev d).trans (if_pos found)
    · intro d found
      exact (linked.next d).trans (if_pos found)
    · intro d _ notNext
      exact (linked.prev d).trans (if_neg notNext)
    · intro d _ notPrev
      exact (linked.next d).trans (if_neg notPrev)
  · intro d
    rw [registered.once.mem_erase_iff]
    simp [Pc.listed]
  · intro d _ alive
    exact mt (linked.live d).mp alive
  · intro d e found early _
    refine (linked.prev d).trans (if_neg ?_)
    intro isNextOf
    apply registered.early_absent found early
    rw [split]
    exact List.mem_append_right _ (List.mem_cons_of_mem _ (nextMember d isNextOf))

theorem Registered.destroy (registered : Registered s l) (running : s.threads c = some thread)
    (isPc : thread.pc = .unlinked) :
    ∃ middle, { s with numClientThreads := s.numClientThreads - 1 }.clientDestructor c = .ok middle ∧
      middle.listener = s.listener ∧ Registered (middle.goto c thread .terminated) l := by
  have was : s.pcOf c = some .unlinked := by rw [State.pcOf, running, ← isPc]; rfl
  have absent := registered.absent was rfl
  obtain ⟨client, found⟩ := exists_client (registered.live c _ was (by decide))
  have different : ∀ d ∈ l, d ≠ c := by
    rintro d member rfl
    exact absent member
  refine ⟨{ s with numClientThreads := s.numClientThreads - 1, clients := Function.update s.clients c none }, ?_, rfl, ?_⟩
  · simp [State.clientDestructor, State.getClient, found]
  · have turned : Turned s
        ({ s with numClientThreads := s.numClientThreads - 1, clients := Function.update s.clients c none }.goto c thread
          .terminated) c .unlinked .terminated [] := by
      rw [← isPc]
      exact turned_goto running rfl (fun _ => rfl) (by rw [isPc]; rfl) rfl rfl (List.append_nil _).symm
    refine registered.turned turned registered.head ?_ registered.once ?_ ?_ (by decide) (by decide) ?_
    · apply registered.linked.congr
      · intro d member
        simp [State.nextOf, State.goto, different d member]
      · intro d member
        simp [State.prevOf, State.goto, different d member]
    · intro d
      by_cases here : d = c
      · simp [here, absent, Pc.listed]
      · simp [here]
    · intro d notHere alive
      have other : d ≠ c := fun here => absurd rfl (notHere here)
      simpa [State.goto, other] using alive
    · intro d e _ _ notHere
      have other : d ≠ c := fun here => by cases notHere here
      simp [State.prevOf, State.goto, other]

/-! ### One step -/

/-- The step does not fault, and the list is in order behind it. -/
def Registers (listener : Option ClientId) (result : Except Fault (Option State)) : Prop :=
  result = .ok none ∨ ∃ s' l', result = .ok (some s') ∧ s'.listener = listener ∧ Registered s' l'

theorem clientControlWait_listener : (s.clientControlWait c thread).listener = s.listener := by
  unfold State.clientControlWait
  split <;> rfl

theorem Registered.wait (registered : Registered s l) (running : s.threads c = some thread)
    (waits : thread.pc = .ready ∨ thread.pc = .blocked) : Registered (s.clientControlWait c thread) l := by
  obtain ⟨next, events, turn, turned⟩ := clientControlWait_turned running waits
  have plain : (s.clientControlWait c thread).clients = s.clients ∧
      (s.clientControlWait c thread).threadListHead = s.threadListHead := by
    unfold State.clientControlWait
    split <;> exact ⟨rfl, rfl⟩
  apply registered.move turned plain.1 plain.2
  rcases waits with isPc | isPc <;> rw [isPc] at turn ⊢ <;> cases turn <;> rfl

theorem Registered.runClient (registered : Registered s l) (served : Bool) : Registers s.listener (s.runClient c served) := by
  have still := SameCourse.refl s
  unfold State.runClient
  cases running : s.threads c with
  | none => exact .inl rfl
  | some thread =>
    obtain ⟨pc, cancelled⟩ := thread
    cases pc with
    | start =>
      refine .inr ⟨_, l, rfl, rfl, ?_⟩
      by_cases closed : s.acceptingClients = 0
      · rw [if_pos closed]
        exact registered.move (still.turned running rfl) rfl rfl rfl
      · rw [if_neg closed]
        exact registered.move (still.turned running rfl) rfl rfl rfl
    | admitted =>
      refine .inr ⟨_, l, rfl, rfl, ?_⟩
      have turned : Turned s ({ s with numClientThreads := s.numClientThreads + 1 }.goto c ⟨.admitted, cancelled⟩ .counted) c
          .admitted .counted [] :=
        turned_goto running rfl (fun _ => rfl) rfl rfl rfl (List.append_nil _).symm
      exact registered.move turned rfl rfl rfl
    | counted =>
      obtain ⟨middle, run, listener, inserted⟩ := registered.insert running rfl
      refine .inr ⟨middle.goto c _ .serving, _, ?_, listener, inserted⟩
      simp only [run]
      rfl
    | serving =>
      refine .inr ⟨_, l, rfl, rfl, ?_⟩
      cases served with
      | true => exact registered.move (still.turned running rfl) rfl rfl rfl
      | false => exact registered.move (still.turned running rfl) rfl rfl rfl
    | ready => exact .inr ⟨_, l, rfl, clientControlWait_listener, registered.wait running (.inl rfl)⟩
    | blocked => exact .inr ⟨_, l, rfl, clientControlWait_listener, registered.wait running (.inr rfl)⟩
    | calling =>
      refine .inr ⟨_, l, rfl, rfl, ?_⟩
      have turned : Turned s ((s.note (.interpret c)).goto c ⟨.calling, cancelled⟩ .interpreting) c .calling .interpreting
          [.interpret c] :=
        turned_goto running rfl (fun _ => rfl) (Int.add_zero _).symm rfl rfl rfl
      exact registered.move turned rfl rfl rfl
    | interpreting =>
      exact .inr ⟨_, l, rfl, rfl, registered.move (still.turned running rfl) rfl rfl rfl⟩
    | leaving =>
      obtain ⟨middle, run, listener, unlinked⟩ := registered.unlink running rfl
      refine .inr ⟨middle.goto c _ .unlinked, _, ?_, listener, unlinked⟩
      simp only [run]
      rfl
    | unlinked =>
      obtain ⟨middle, run, listener, destroyed⟩ := registered.destroy running rfl
      refine .inr ⟨middle.goto c _ .terminated, _, ?_, listener, destroyed⟩
      simp only [run]
      rfl
    | terminated => exact .inl rfl

theorem Registered.actOnCancel (registered : Registered s l) : Registers s.listener (.ok (s.actOnCancel c)) := by
  cases run : s.actOnCancel c with
  | none => exact .inl rfl
  | some s' =>
    refine .inr ⟨s', l, rfl, ?_⟩
    obtain ⟨thread, running, run⟩ := Option.bind_eq_some_iff.mp run
    by_cases acts : thread.cancelled ∧ thread.pc.cancellationPoint
    · rw [if_pos acts] at run
      obtain rfl := Option.some.inj run
      obtain ⟨pc, cancelled⟩ := thread
      have at' : pc = .serving ∨ pc = .blocked ∨ pc = .interpreting := by
        cases pc <;> simp_all [Pc.cancellationPoint]
      rcases at' with rfl | rfl | rfl <;>
        exact ⟨rfl, registered.move ((SameCourse.refl s).turned running rfl) rfl rfl rfl⟩
    · rw [if_neg acts] at run
      cases run

/-- `delete_all` goes through the list: it comes to its end and asks exactly these threads to cancel. -/
theorem cancelFrom_runs {before : Option ClientId} (linked : Chain s.nextOf s.prevOf before l none)
    (live : ∀ c ∈ l, s.clients c ≠ none) (once : l.Nodup) {rounds : Nat} (enough : l.length ≤ rounds) :
    ∃ s', State.cancelFrom rounds l.head? s = .ok s' ∧ s'.clients = s.clients ∧ s'.threadListHead = s.threadListHead ∧
      s'.listener = s.listener ∧ ∀ c, s'.threads c = if c ∈ l then (s.threads c).map fun thread => { thread with cancelled := true } else s.threads c := by
  induction l generalizing s before rounds with
  | nil =>
    refine ⟨s, ?_, rfl, rfl, rfl, fun c => (if_neg (by simp)).symm⟩
    cases rounds <;> rfl
  | cons c l ih =>
    obtain ⟨rounds, rfl⟩ : ∃ n, rounds = n + 1 := ⟨rounds - 1, by simp at enough; omega⟩
    obtain ⟨_, isNext, rest⟩ := linked
    obtain ⟨fresh, once⟩ := List.nodup_cons.mp once
    obtain ⟨s', run, clients, head, listener, threads⟩ := ih (s := s.pthreadCancel c) rest
      (fun d member => live d (List.mem_cons_of_mem _ member)) once (show l.length ≤ rounds by simpa using enough)
    refine ⟨s', ?_, clients, head, listener, ?_⟩
    · rw [List.head?_cons, State.cancelFrom, getClient_runs (live c List.mem_cons_self), isNext, Option.or_none]
      exact run
    · intro d
      rw [threads d]
      by_cases here : d = c
      · subst here
        simp [fresh, State.pthreadCancel]
      · simp [here, State.pthreadCancel]

theorem Registered.length_le (registered : Registered s l) : l.length ≤ s.created := by
  have inside : l ⊆ List.range s.created := by
    intro c member
    obtain ⟨pc, found, _⟩ := (registered.members c).mp member
    rw [List.mem_range]
    by_contra beyond
    rw [registered.bounded c (Nat.le_of_not_lt beyond)] at found
    cases found
  simpa using (registered.once.subperm inside).length_le

theorem Registered.deleteAll (registered : Registered s l) :
    ∃ s', s.deleteAll = .ok s' ∧ s'.listener = s.listener ∧ Registered s' l ∧
      ∀ c, s'.threads c = if c ∈ l then (s.threads c).map fun thread => { thread with cancelled := true } else s.threads c := by
  obtain ⟨s', run, clients, head, listener, threads⟩ := cancelFrom_runs registered.linked
    (fun c member => registered.member_live member) registered.once registered.length_le
  rw [← registered.head] at run
  have same := cancelFrom_course _ _ _ _ run
  exact ⟨s', run, listener, registered.same same.created same.pcs same.num clients head, threads⟩

theorem Registered.connect (registered : Registered s l) : Registered s.clientConstructor l := by
  have fresh := registered.bounded s.created (le_refl _)
  have different : ∀ c pc, s.pcOf c = some pc → c ≠ s.created := by
    rintro c pc found rfl
    rw [fresh] at found
    cases found
  have listed : ∀ c ∈ l, c ≠ s.created := by
    intro c member
    obtain ⟨pc, found, _⟩ := (registered.members c).mp member
    exact different c pc found
  refine ⟨registered.head, ?_, registered.once, ?_, ?_, ?_, ?_, registered.tallied.connect fresh⟩
  · apply registered.linked.congr
    · intro c member
      simp [State.nextOf, State.clientConstructor, listed c member]
    · intro c member
      simp [State.prevOf, State.clientConstructor, listed c member]
  · intro c
    rw [registered.members c, pcOf_clientConstructor]
    by_cases new : c = s.created
    · simp [new, fresh, Pc.listed]
    · simp [new]
  · intro c pc found running
    rw [pcOf_clientConstructor] at found
    by_cases new : c = s.created
    · simp [new, State.clientConstructor]
    · rw [if_neg new] at found
      simpa [new, State.clientConstructor] using registered.live c pc found running
  · intro c pc found early
    rw [pcOf_clientConstructor] at found
    by_cases new : c = s.created
    · simp [new, State.clientConstructor, State.prevOf]
    · rw [if_neg new] at found
      simpa [new, State.clientConstructor, State.prevOf] using registered.unlinked c pc found early
  · intro c unused
    have later : s.created < c := unused
    rw [pcOf_clientConstructor, if_neg (ne_of_gt later)]
    exact registered.bounded c (le_of_lt later)

theorem Registered.runMain (registered : Registered s l) (command : MainCommand) : Registers s.listener (s.runMain command) := by
  have still : ∀ s', s'.created = s.created → s'.threads = s.threads → s'.numClientThreads = s.numClientThreads →
      s'.clients = s.clients → s'.threadListHead = s.threadListHead → Registered s' l := by
    intro s' created threads num clients head
    exact registered.same created (fun c => by rw [State.pcOf, State.pcOf, threads]) num clients head
  unfold State.runMain
  cases s.main with
  | commands =>
    cases command with
    | stop => exact .inr ⟨_, l, rfl, rfl, still _ rfl rfl rfl rfl rfl⟩
    | go => exact .inr ⟨_, l, rfl, rfl, still _ rfl rfl rfl rfl rfl⟩
    | print => exact .inr ⟨_, l, rfl, rfl, still _ rfl rfl rfl rfl rfl⟩
    | eof => exact .inr ⟨_, l, rfl, rfl, still _ rfl rfl rfl rfl rfl⟩
  | closing => exact .inr ⟨_, l, rfl, rfl, still _ rfl rfl rfl rfl rfl⟩
  | refusing =>
    obtain ⟨s', run, listener, deleted, _⟩ := registered.deleteAll
    refine .inr ⟨{ s' with main := .waiting }, l, ?_, listener, deleted.same rfl (fun _ => rfl) rfl rfl rfl⟩
    simp only [run]
    rfl
  | waiting =>
    by_cases busy : s.numClientThreads > 0
    · exact .inl (by simp only [if_pos busy]; rfl)
    · exact .inr ⟨{ s with main := .cleaning }, l, by simp only [if_neg busy]; rfl, rfl, still _ rfl rfl rfl rfl rfl⟩
  | cleaning => exact .inr ⟨_, l, rfl, rfl, still _ rfl rfl rfl rfl rfl⟩
  | cleaned => exact .inl rfl

theorem Registered.anyStep (registered : Registered s l) (action : Action) :
    ∃ listener, Registers listener (s.anyStep action) := by
  cases action with
  | connect => exact ⟨_, .inr ⟨_, l, rfl, rfl, registered.connect⟩⟩
  | detach => exact ⟨_, .inr ⟨_, l, rfl, rfl, registered.same rfl (fun _ => rfl) rfl rfl rfl⟩⟩
  | client c served => exact ⟨_, registered.runClient served⟩
  | cancel c => exact ⟨_, registered.actOnCancel⟩
  | sigint =>
    obtain ⟨s', run, listener, deleted, _⟩ := registered.deleteAll
    refine ⟨_, .inr ⟨s', l, ?_, listener, deleted⟩⟩
    simp only [State.anyStep, run]
    rfl
  | main command => exact ⟨_, registered.runMain command⟩

/-! ### Runs -/

/-- The threads that count are those in the list, those on the way into it and those on the way out. -/
theorem Registered.count (registered : Registered s l) :
    s.numClientThreads = l.length + s.standing .counted + s.standing .unlinked := by
  obtain ⟨members, isMember, count⟩ := registered.tallied
  let at' (pc : Pc) : Finset ClientId := (Finset.range s.created).filter fun c => s.pcOf c = some pc
  have mem_at : ∀ c pc, c ∈ at' pc ↔ s.pcOf c = some pc := by
    intro c pc
    simp only [at', Finset.mem_filter, Finset.mem_range, and_iff_right_iff_imp]
    intro found
    by_contra beyond
    rw [registered.bounded c (Nat.le_of_not_lt beyond)] at found
    cases found
  have split : members = (l.toFinset ∪ at' .counted) ∪ at' .unlinked := by
    ext c
    rw [isMember c, Finset.mem_union, Finset.mem_union, List.mem_toFinset, registered.members c, mem_at, mem_at]
    constructor
    · rintro ⟨pc, found, counts⟩
      cases pc <;> simp_all [Pc.counts, Pc.listed]
    · rintro ((⟨pc, found, listed⟩ | found) | found)
      · refine ⟨pc, found, ?_⟩
        cases pc <;> simp_all [Pc.counts, Pc.listed]
      · exact ⟨_, found, rfl⟩
      · exact ⟨_, found, rfl⟩
  have first : Disjoint l.toFinset (at' .counted) := by
    refine Finset.disjoint_left.mpr fun c member found => ?_
    exact registered.absent ((mem_at c _).mp found) rfl (List.mem_toFinset.mp member)
  have second : Disjoint (l.toFinset ∪ at' .counted) (at' .unlinked) := by
    refine Finset.disjoint_left.mpr fun c member found => ?_
    have here := (mem_at c _).mp found
    rcases Finset.mem_union.mp member with listed | other
    · exact registered.absent here rfl (List.mem_toFinset.mp listed)
    · cases here.symm.trans ((mem_at c _).mp other)
  rw [count, split, Finset.card_union_of_disjoint second, Finset.card_union_of_disjoint first,
    List.toFinset_card_of_nodup registered.once]
  rfl

theorem interleaved_registered (reachable : Interleaved s) : ∃ l, Registered s l := by
  apply reachable.invariant (P := fun s => ∃ l, Registered s l) ⟨[], registered_initial⟩
  rintro s s' action ⟨l, registered⟩ _ run
  obtain ⟨_, blocked | ⟨t, l', step, _, kept⟩⟩ := registered.anyStep action
  · cases blocked.symm.trans run
  · obtain rfl := Option.some.inj (Except.ok.inj (step.symm.trans run))
    exact ⟨l', kept⟩

/-- In every interleaving the list is in order and accounts for the counter; no step, `delete_all`
included, meets a destroyed client. -/
theorem interleaved_registry (reachable : Interleaved s) :
    ∃ l, Registry s l ∧ 0 ≤ s.numClientThreads ∧ (s.numClientThreads = 0 → l = []) ∧
      (∃ s', s.deleteAll = .ok s' ∧ ∀ c, s'.threads c =
        if c ∈ l then (s.threads c).map fun thread => { thread with cancelled := true } else s.threads c) ∧
      ∀ action, ∃ next, s.anyStep action = .ok next := by
  obtain ⟨l, registered⟩ := interleaved_registered reachable
  have count := registered.count
  refine ⟨l, ⟨registered.head, registered.linked, registered.once, registered.members,
    fun c member => registered.member_live member, count⟩, by omega, ?_, ?_, ?_⟩
  · intro none
    rw [← List.length_eq_zero_iff]
    omega
  · obtain ⟨s', run, _, _, threads⟩ := registered.deleteAll
    exact ⟨s', run, threads⟩
  · intro action
    obtain ⟨_, blocked | ⟨t, _, step, _⟩⟩ := registered.anyStep action
    · exact ⟨none, blocked⟩
    · exact ⟨some t, step⟩

/-- Three clients connect; the thread of the second has left the list and is still counted. -/
def threeClients : List Action :=
  [Action.connect, .connect, .connect] ++ List.replicate 3 (Action.client 0 true) ++
    List.replicate 3 (Action.client 1 true) ++ List.replicate 3 (Action.client 2 true) ++
    [Action.client 1 false, .client 1 false]

theorem registry_threeClients : ∃ s, Interleaved s ∧ s.threadListHead = some 2 ∧ s.numClientThreads = 3 ∧
    ∃ l, Registry s l := by
  have run : (Transition.follow State.anyStep (fun _ _ => True) threeClients State.initial).map
      (fun s => (s.threadListHead, s.numClientThreads)) = some (some 2, 3) := by decide +kernel
  obtain ⟨s, found, view⟩ := Option.map_eq_some_iff.mp run
  obtain ⟨head, num⟩ := Prod.mk.inj view
  have reachable : Interleaved s := Transition.follow_reachable .initial found
  obtain ⟨l, registry, _⟩ := interleaved_registry reachable
  exact ⟨s, reachable, head, num, l, registry⟩

end Cs1330.Server
