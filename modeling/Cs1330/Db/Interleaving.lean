import Cs1330.Db.Positions

/-!
# Interleaved calls

The invariant of the runs in which no `db_remove` walks through nodes that another thread has
locked, and what it gives: no thread uses a destroyed node, and no added key is lost.
-/

namespace Cs1330.Db
open SearchTree SearchTree.Tree

/-! ### The two steps that write -/

section
variable {s s' : Store} {c : KeyCtx} {key value : CString} {n : NodeId}

theorem kept_add {a : NodeId} (same : s'.nodes n = s.nodes n) :
    Kept s s' (c.plug .nil) (c.plug (.node a .nil key value .nil)) n := by
  refine ⟨same, ?_, ?_⟩
  · intro member
    rcases Ctx.mem_addrs_plug.mp member with inCtx | inNil
    · exact Ctx.mem_addrs_plug.mpr (Or.inl inCtx)
    · cases inNil
  · intro k onPath
    by_cases follows : c.Follows k
    · rw [Ctx.path_plug follows] at onPath ⊢
      simp only [path, List.append_nil] at onPath
      exact List.mem_append_left _ onPath
    · rwa [Ctx.path_plug_other follows _ .nil]

/-- `n` is none of the nodes that a `db_remove` of the root `d` under `owner` works on. -/
def Apart (owner d : NodeId) (l r : KeyTree) (n : NodeId) : Prop :=
  n ≠ owner ∧ n ≠ d ∧ (l ≠ .nil → r ≠ .nil → n ∉ r.chain)

variable {d victim : NodeId} {l r : KeyTree}

theorem Unlinked.same (done : Unlinked s s' c d l key value r victim) (apart : Apart (c.owner head) d l r n) :
    s'.nodes n = s.nodes n := by
  rcases done.frame with ⟨_, frame⟩ | ⟨left, right, frame⟩
  · exact frame n apart.1
  · exact frame n apart.2.1 (apart.2.2 left right)

theorem Unlinked.victim_ne (done : Unlinked s s' c d l key value r victim) (apart : Apart (c.owner head) d l r n) :
    n ≠ victim := by
  have isVictim := done.isVictim
  cases r with
  | nil =>
    obtain rfl := Option.some.inj isVictim
    exact apart.2.1
  | node b rl rk rv rr =>
    cases l with
    | nil =>
      obtain rfl := Option.some.inj isVictim
      exact apart.2.1
    | node b' ll lk lv lr =>
      obtain rfl := Option.some.inj isVictim
      intro equal
      exact apart.2.2 (by simp) (by simp) (equal ▸ popMin_mem_chain b rk rv rr rl)

theorem Unlinked.keeps (done : Unlinked s s' c d l key value r victim) (shape : Shape s (c.plug (.node d l key value r)))
    (apart : Apart (c.owner head) d l r n) :
    Kept s s' (c.plug (.node d l key value r)) (c.plug (removeRoot (.node d l key value r))) n := by
  have notVictim := done.victim_ne apart
  refine ⟨done.same apart, ?_, ?_⟩
  · intro member
    have moved := done.addrs.mem_iff.mp (List.mem_cons_of_mem _ member)
    rcases List.mem_cons.mp moved with isVictim | kept
    · exact (notVictim isVictim).elim
    · rcases List.mem_cons.mp kept with isHead | kept
      · subst isHead
        exact (shape.head_notMem member).elim
      · exact kept
  · intro k onPath
    by_cases follows : c.Follows k
    · rw [Ctx.path_plug follows] at onPath ⊢
      rcases List.mem_append.mp onPath with inSpine | inTree
      · exact List.mem_append_left _ inSpine
      · apply List.mem_append_right _
        by_cases one : l = .nil ∨ r = .nil
        · exact path_removeRoot_one one inTree apart.2.1
        · have both := not_or.mp one
          exact path_removeRoot_two (ordered_plug shape.ordered) both inTree apart.2.1 (apart.2.2 both.1 both.2)
    · rwa [Ctx.path_plug_other follows _ (.node d l key value r)]

/-- The chain that `db_remove` follows, read from the store. -/
theorem chainOf_stored (r : KeyTree) :
    ∀ (nodes : NodeId → Option Node) (rounds : Nat), Stored nodes r → r.addrs.length < rounds →
      chainOf nodes rounds r.ptr = r.chain := by
  induction r with
  | nil =>
    intro nodes rounds _ bound
    obtain ⟨rounds, rfl⟩ : ∃ k, rounds = k + 1 := ⟨rounds - 1, by omega⟩
    rfl
  | node a l k v r ihl _ =>
    intro nodes rounds stored bound
    obtain ⟨rounds, rfl⟩ : ∃ k, rounds = k + 1 := ⟨rounds - 1, by omega⟩
    simp only [Tree.addrs, List.length_cons, List.length_append] at bound
    rw [ptr, chainOf, stored.1, chain]
    exact congrArg (List.cons a) (ihl nodes rounds stored.2.1 (by omega))

end

/-! ### What the log says of the tree -/

def Pc.result : Pc → Option Result
  | finish _ _ result => some result
  | _ => none

def Spared (log : List Event) (key : CString) : Prop := ∀ u, Event.invoked u (.remove key) ∉ log

/-- A `db_add` of the binding had returned 1 when the log had `start` events. -/
def AddedBefore (log : List Event) (start : Nat) (key value : CString) : Prop :=
  ∃ u begun, Event.returned u (.add key value) begun (.status 1) ∈ log.take start

/-- What the call of a thread, as far as it has got, has to do with the tree. -/
def Recorded (log : List Event) (tree : KeyTree) (act : Activity) : Prop :=
  match act.call with
  | .add key value => act.pc.result = some (.status 1) → Spared log key → tree.lookup key = some value
  | .query key => ∀ result value, act.pc.result = some result → Spared log key → AddedBefore log act.start key value →
      result = .value value
  | .remove key => ¬Spared log key

structure History (s : System) (tree : KeyTree) : Prop where
  started : ∀ t act, s.threads t = some act → act.start ≤ s.log.length
  recorded : ∀ t act, s.threads t = some act → Recorded s.log tree act
  added : ∀ t key value start, Event.returned t (.add key value) start (.status 1) ∈ s.log → Spared s.log key →
    tree.lookup key = some value
  answered : ∀ t key start result, Event.returned t (.query key) start result ∈ s.log →
    start ≤ s.log.length ∧ ∀ value, Spared s.log key → AddedBefore s.log start key value → result = .value value

variable {s s' : System} {tree tree' : KeyTree} {t : Nat} {act : Activity} {pc : Pc} {log : List Event} {event : Event}
  {key value : CString} {start : Nat}

theorem history_initial : History System.initial .nil := by
  constructor
  · intro t act found
    cases found
  · intro t act found
    cases found
  · intro t key value start member
    cases member
  · intro t key start result member
    cases member

theorem AddedBefore.mem (added : AddedBefore log start key value) :
    ∃ u begun, Event.returned u (.add key value) begun (.status 1) ∈ log := by
  obtain ⟨u, begun, member⟩ := added
  exact ⟨u, begun, List.mem_of_mem_take member⟩

theorem Spared.before (spared : Spared (log ++ [event]) key) : Spared log key :=
  fun u member => spared u (List.mem_append_left _ member)

theorem AddedBefore.earlier (added : AddedBefore (log ++ [event]) start key value) (bound : start ≤ log.length) :
    AddedBefore log start key value := by
  obtain ⟨u, begun, member⟩ := added
  rw [List.take_append_of_le_length bound] at member
  exact ⟨u, begun, member⟩

theorem Recorded.move (recorded : Recorded log tree act) (result : pc.result = none ∨ pc.result = act.pc.result) :
    Recorded log tree { act with pc := pc } := by
  unfold Recorded at recorded ⊢
  obtain ⟨call, start, old⟩ := act
  cases call with
  | query key =>
    intro answer value isAnswer
    rcases result with none | same
    · rw [none] at isAnswer
      cases isAnswer
    · exact recorded answer value (same ▸ isAnswer)
  | add key value =>
    intro isAnswer
    rcases result with none | same
    · rw [none] at isAnswer
      cases isAnswer
    · exact recorded (same ▸ isAnswer)
  | remove key => exact recorded

theorem Recorded.append (recorded : Recorded log tree act) (bound : act.start ≤ log.length) :
    Recorded (log ++ [event]) tree act := by
  unfold Recorded at recorded ⊢
  obtain ⟨call, start, pc⟩ := act
  cases call with
  | query key =>
    intro answer value isAnswer spared added
    exact recorded answer value isAnswer spared.before (added.earlier bound)
  | add key value => exact fun isAnswer spared => recorded isAnswer spared.before
  | remove key => exact fun spared => recorded spared.before

theorem Recorded.lookup (recorded : Recorded log tree act)
    (lookups : ∀ key value, Spared log key → tree.lookup key = some value → tree'.lookup key = some value) :
    Recorded log tree' act := by
  unfold Recorded at recorded ⊢
  obtain ⟨call, start, pc⟩ := act
  cases call with
  | query key => exact recorded
  | add key value => exact fun isAnswer spared => lookups key value spared (recorded isAnswer spared)
  | remove key => exact recorded

/-- A step within a call. The tree keeps every binding whose key nobody removes. -/
theorem History.step (history : History s tree) (others : ∀ u, u ≠ t → s'.threads u = s.threads u) (log : s'.log = s.log)
    (lookups : ∀ key value, Spared s.log key → tree.lookup key = some value → tree'.lookup key = some value)
    (own : ∀ act, s'.threads t = some act → act.start ≤ s.log.length ∧ Recorded s.log tree' act) : History s' tree' := by
  refine ⟨?_, ?_, ?_, ?_⟩
  · intro u other found
    rw [log]
    by_cases here : u = t
    · subst here
      exact (own other found).1
    · rw [others u here] at found
      exact history.started u other found
  · intro u other found
    rw [log]
    by_cases here : u = t
    · subst here
      exact (own other found).2
    · rw [others u here] at found
      exact (history.recorded u other found).lookup lookups
  · intro u key value start member spared
    rw [log] at member spared
    exact lookups key value spared (history.added u key value start member spared)
  · rw [log]
    exact history.answered

theorem History.append (history : History s tree) (others : ∀ u, u ≠ t → s'.threads u = s.threads u)
    (log : s'.log = s.log ++ [event])
    (own : ∀ act, s'.threads t = some act → act.start ≤ s.log.length ∧ Recorded s'.log tree act)
    (added : ∀ u key value start, event = .returned u (.add key value) start (.status 1) → Spared s.log key →
      tree.lookup key = some value)
    (answered : ∀ u key start result, event = .returned u (.query key) start result →
      start ≤ s.log.length ∧ ∀ value, Spared s.log key → AddedBefore s.log start key value → result = .value value) :
    History s' tree := by
  have longer : s'.log.length = s.log.length + 1 := by simp [log]
  refine ⟨?_, ?_, ?_, ?_⟩
  · intro u other found
    by_cases here : u = t
    · subst here
      exact Nat.le_trans (own other found).1 (by omega)
    · rw [others u here] at found
      exact Nat.le_trans (history.started u other found) (by omega)
  · intro u other found
    by_cases here : u = t
    · subst here
      exact (own other found).2
    · rw [others u here] at found
      rw [log]
      exact (history.recorded u other found).append (history.started u other found)
  · intro u key value start member spared
    rw [log] at member spared
    rcases List.mem_append.mp member with old | new
    · exact history.added u key value start old spared.before
    · exact added u key value start (List.mem_singleton.mp new).symm spared.before
  · intro u key start result member
    rw [log] at member
    have known : start ≤ s.log.length ∧
        ∀ value, Spared s.log key → AddedBefore s.log start key value → result = .value value := by
      rcases List.mem_append.mp member with old | new
      · exact history.answered u key start result old
      · exact answered u key start result (List.mem_singleton.mp new).symm
    refine ⟨Nat.le_trans known.1 (by omega), fun value spared before => ?_⟩
    rw [log] at spared before
    exact known.2 value spared.before (before.earlier known.1)

/-! ### One step -/

structure Invariant (s : System) (tree : KeyTree) : Prop where
  exclusion : Exclusion s
  positions : Positions s tree
  history : History s tree

/-- The step of thread `t` does not fault, and keeps the invariant unless it removes a node in the
way of another thread. -/
def Safe (s : System) (t : Nat) : Prop :=
  ∃ next, s.advance t = .ok next ∧ (ClearFor s t → ∀ s', next = some s' → ∃ tree, Invariant s' tree)

theorem Safe.of_step (step : s.advance t = .ok (some s')) (keeps : ClearFor s t → ∃ tree, Invariant s' tree) : Safe s t := by
  refine ⟨some s', step, ?_⟩
  intro clear s'' isNext
  obtain rfl := Option.some.inj isNext
  exact keeps clear

theorem Runs.system {α : Type} {code : DbM α} {a : α} {store : Store} (runs : Runs code s.store a store) :
    ∃ ops, s.run code = .ok (a, { s with store := store.withOps ops }) := by
  obtain ⟨ops, run⟩ := runs
  refine ⟨ops, ?_⟩
  rw [System.run, run]
  rfl

theorem Exclusion.withStore (exclusion : Exclusion s) (store : Store) : Exclusion { s with store := store } :=
  ⟨exclusion.table, exclusion.nodup, exclusion.exclusive⟩

theorem Invariant.quiet {ops : List Op} (invariant : Invariant s tree) (running : s.threads t = some act)
    (exclusion : Exclusion s') (store : s'.store = s.store.withOps ops) (log : s'.log = s.log)
    (threads : s'.threads = Function.update s.threads t (some { act with pc := pc }))
    (placed : Placed s.store.nodes tree act.call.key pc) (victim : ∀ v, pc.victim = some v → act.pc.victim = some v)
    (recorded : Recorded s.log tree { act with pc := pc }) : Invariant s' tree := by
  have others : ∀ u, u ≠ t → s'.threads u = s.threads u := by
    intro u here
    rw [threads, Function.update_of_ne here]
  have isNew : ∀ new, s'.threads t = some new → new = { act with pc := pc } := by
    intro new found
    rw [threads, Function.update_self] at found
    exact (Option.some.inj found).symm
  refine ⟨exclusion, ?_, ?_⟩
  · apply invariant.positions.quiet others store
    intro new found
    rw [isNew new found]
    exact ⟨invariant.positions.short t act running, placed,
      fun v isVictim => invariant.positions.detached t act v running (victim v isVictim)⟩
  · refine invariant.history.step others log (fun _ _ _ found => found) ?_
    intro new found
    rw [isNew new found]
    exact ⟨invariant.history.started t act running, recorded⟩

theorem Invariant.goto (invariant : Invariant s tree) (running : s.threads t = some act) (ops : List Op)
    (same : pc.held = act.pc.held) (placed : Placed s.store.nodes tree act.call.key pc)
    (victim : ∀ v, pc.victim = some v → act.pc.victim = some v) (recorded : Recorded s.log tree { act with pc := pc }) :
    Invariant (({ s with store := s.store.withOps ops } : System).goto t act pc) tree :=
  invariant.quiet running ((invariant.exclusion.withStore _).goto running same) rfl rfl rfl placed victim recorded

variable {n : NodeId} {mode : Mode}

theorem Invariant.safe_lock (invariant : Invariant s tree) (running : s.threads t = some act)
    (step : s.advance t = s.lock t act mode n pc) (inTree : n ∈ head :: tree.addrs) (isMode : mode = act.call.lockMode n)
    (held : ∀ m, m ∈ pc.held ↔ m = n ∨ m ∈ act.pc.held) (distinct : pc.held.Nodup)
    (placed : Placed s.store.nodes tree act.call.key pc) (victim : pc.victim = none) (undecided : pc.result = none) :
    Safe s t := by
  obtain ⟨v, found⟩ := invariant.positions.shape.present inTree
  have taken : Runs (rwlock mode n) s.store () s.store := runs_rwlock found
  obtain ⟨ops, run⟩ := taken.system
  let locking : System := { s with store := s.store.withOps ops }
  by_cases granted : locking.CanLock mode n
  · subst isMode
    have exclusion := (invariant.exclusion.withStore (s.store.withOps ops)).lock running held distinct granted
    have taken := step.trans (show s.lock t act (act.call.lockMode n) n pc = .ok (some _) by
      rw [System.lock, run]
      exact if_pos granted)
    refine Safe.of_step taken fun _ => ⟨tree, invariant.quiet running exclusion rfl rfl rfl placed ?_ ?_⟩
    · intro v isVictim
      rw [victim] at isVictim
      cases isVictim
    · exact (invariant.history.recorded t act running).move (Or.inl undecided)
  · refine ⟨none, ?_, ?_⟩
    · rw [step, System.lock, run]
      exact if_neg granted
    · rintro _ s' ⟨⟩

theorem Invariant.safe_unlock (invariant : Invariant s tree) (running : s.threads t = some act)
    (step : s.advance t = s.unlock t act n pc) (locked : n ∈ act.pc.held)
    (held : ∀ m, m ∈ pc.held ↔ m ≠ n ∧ m ∈ act.pc.held) (distinct : pc.held.Nodup)
    (placed : Placed s.store.nodes tree act.call.key pc) (victim : pc.victim = act.pc.victim)
    (result : pc.result = none ∨ pc.result = act.pc.result) : Safe s t := by
  obtain ⟨⟨v, found⟩, _⟩ := invariant.positions.held running locked
  obtain ⟨ops, run⟩ := (runs_unlock found).system
  have exclusion := (invariant.exclusion.withStore (s.store.withOps ops)).unlock running held distinct
  have released := step.trans (show s.unlock t act n pc = .ok (some _) by
    rw [System.unlock, run]
    rfl)
  refine Safe.of_step released fun _ => ⟨tree, invariant.quiet running exclusion rfl rfl rfl placed ?_ ?_⟩
  · intro v isVictim
    rwa [← victim]
  · exact (invariant.history.recorded t act running).move result

theorem Call.lockMode_tree (positions : Positions s tree) (member : n ∈ tree.addrs) (call : Call) :
    call.mode = call.lockMode n := by
  rw [Call.lockMode, if_neg]
  intro isHead
  subst isHead
  exact positions.shape.head_notMem member

theorem Invariant.safe_goto {α : Type} {code : DbM α} {a : α} (invariant : Invariant s tree) (pc : Pc)
    (running : s.threads t = some act) (runs : Runs code s.store a s.store)
    (step : ∀ ops, s.run code = .ok (a, { s with store := s.store.withOps ops }) →
      s.advance t = .ok (some (({ s with store := s.store.withOps ops } : System).goto t act pc)))
    (same : pc.held = act.pc.held) (placed : Placed s.store.nodes tree act.call.key pc)
    (victim : pc.victim = none) (recorded : Recorded s.log tree { act with pc := pc }) : Safe s t := by
  obtain ⟨ops, run⟩ := runs.system
  refine Safe.of_step (step ops run) fun _ => ⟨tree, invariant.goto running ops same placed ?_ recorded⟩
  intro v isVictim
  rw [victim] at isVictim
  cases isVictim

section
variable {call : Call} {p next : NodeId}

theorem Invariant.safe_start (invariant : Invariant s tree) (running : s.threads t = some ⟨call, start, .start⟩) :
    Safe s t := by
  have step : s.advance t = s.lock t ⟨call, start, .start⟩ .write head (.visit head) := by
    simp only [System.advance, running]
  refine invariant.safe_lock running step List.mem_cons_self ?_ ?_ (List.nodup_singleton _) (Or.inl rfl) rfl rfl
  · rw [Call.lockMode, if_pos rfl]
  · intro m
    simp [Pc.held]

theorem Invariant.safe_wait (invariant : Invariant s tree) (running : s.threads t = some ⟨call, start, .wait p next⟩) :
    Safe s t := by
  have step : s.advance t = s.lock t ⟨call, start, .wait p next⟩ call.mode next (.compare p next) := by
    simp only [System.advance, running]
  have shape := invariant.positions.shape
  have placed := invariant.positions.placed t _ running
  obtain ⟨onWay, v, found, child⟩ := placed
  obtain ⟨c, l, k, value, r, rfl, follows, rfl⟩ := onWay.child shape found child
  have inTree := root_member c next l k value r
  refine invariant.safe_lock running step (List.mem_cons_of_mem _ inTree) ?_ ?_ ?_ ⟨onWay, v, found, child⟩ rfl rfl
  · exact Call.lockMode_tree invariant.positions inTree call
  · intro m
    simp only [Pc.held, List.mem_cons, List.not_mem_nil, or_false]
    tauto
  · have different : c.owner head ≠ next := by
      intro equal
      exact shape.owner_notIn (equal ▸ List.mem_cons_self)
    simpa [Pc.held] using different

theorem Invariant.safe_descend (invariant : Invariant s tree) (running : s.threads t = some ⟨call, start, .descend p next⟩) :
    Safe s t := by
  have step : s.advance t = s.unlock t ⟨call, start, .descend p next⟩ p (.visit next) := by
    simp only [System.advance, running]
  have distinct := invariant.exclusion.nodup t _ running
  obtain ⟨_, onPath, content⟩ := invariant.positions.placed t _ running
  refine invariant.safe_unlock running step (by simp [Pc.held]) ?_ (List.nodup_singleton _)
    (Or.inr ⟨onPath, content⟩) rfl (Or.inl rfl)
  intro m
  simp only [Pc.held, List.nodup_cons, List.mem_cons, List.not_mem_nil, or_false] at distinct ⊢
  grind

theorem Invariant.safe_hit (invariant : Invariant s tree) (running : s.threads t = some ⟨call, start, .hit p next⟩) :
    Safe s t := by
  have step : s.advance t = s.unlock t ⟨call, start, .hit p next⟩ p (.reading next) := by
    simp only [System.advance, running]
  have distinct := invariant.exclusion.nodup t _ running
  obtain ⟨_, inTree, content⟩ := invariant.positions.placed t _ running
  refine invariant.safe_unlock running step (by simp [Pc.held]) ?_ (List.nodup_singleton _)
    ⟨inTree, content⟩ rfl (Or.inl rfl)
  intro m
  simp only [Pc.held, List.nodup_cons, List.mem_cons, List.not_mem_nil, or_false] at distinct ⊢
  grind

theorem Invariant.safe_unlocks {unlocks : List NodeId} {victim : Option NodeId} {result : Result}
    (invariant : Invariant s tree) (running : s.threads t = some ⟨call, start, .finish (n :: unlocks) victim result⟩) :
    Safe s t := by
  have step : s.advance t = s.unlock t ⟨call, start, .finish (n :: unlocks) victim result⟩ n
      (.finish unlocks victim result) := by
    simp only [System.advance, running]
  have distinct := List.nodup_cons.mp (invariant.exclusion.nodup t _ running)
  have placed := invariant.positions.placed t _ running
  refine invariant.safe_unlock running step List.mem_cons_self ?_ distinct.2 ?_ rfl (Or.inr rfl)
  · intro m
    have absent := distinct.1
    simp only [Pc.held, List.mem_cons]
    grind
  · intro m member
    exact placed m (List.mem_cons_of_mem _ member)

/-- The stored value of the key that a query has found. -/
theorem Invariant.safe_reading (invariant : Invariant s tree) (running : s.threads t = some ⟨call, start, .reading n⟩) :
    Safe s t := by
  have shape := invariant.positions.shape
  obtain ⟨inTree, v, found, isKey⟩ := invariant.positions.placed t _ running
  refine invariant.safe_goto (.finish [n] none (.value v.value)) running (runs_node found) ?_ rfl ?_ rfl ?_
  · intro ops run
    simp only [System.advance, running]
    rw [run]
    rfl
  · intro m member
    obtain rfl := List.mem_singleton.mp member
    exact Or.inl (List.mem_cons_of_mem _ inTree)
  · have recorded := invariant.history.recorded t _ running
    cases call with
    | query key =>
      intro result value isResult spared added
      obtain ⟨u, begun, member⟩ := added.mem
      have known := invariant.history.added u key value begun member spared
      have entry : (v.key, v.value) ∈ tree.entries := shape.stored.entry inTree found
      rw [isKey] at entry
      have same := known.symm.trans ((lookup_eq_some shape.ordered).mpr entry)
      obtain rfl := Option.some.inj isResult
      rw [Option.some.inj same]
    | add key value => exact fun isResult => by cases isResult
    | remove key => exact recorded

theorem Invariant.safe_add {c : KeyCtx} (invariant : Invariant s (c.plug .nil))
    (running : s.threads t = some ⟨.add key value, start, .visit (c.owner head)⟩) (follows : c.Follows key)
    (runs : Runs (childFor key (c.owner head)) s.store none s.store) : Safe s t := by
  obtain ⟨keyShort, valueShort⟩ : key.length < maxLen ∧ value.length < maxLen := invariant.positions.short t _ running
  have shape := invariant.positions.shape
  have started := invariant.history.started t _ running
  obtain ⟨ops, run⟩ := runs.system
  obtain ⟨store, add, shape', rest, frame⟩ :=
    shape.runs_addUnder follows invariant.positions.succeeds keyShort valueShort
  obtain ⟨ops', run'⟩ := Runs.system (s := { s with store := s.store.withOps ops }) (add ops)
  have step : s.advance t = .ok (some (({ s with store := store.withOps ops' } : System).goto t
      ⟨.add key value, start, .visit (c.owner head)⟩ (.finish [c.owner head] none (.status 1)))) := by
    simp only [System.advance, running, Call.key]
    rw [run]
    show (System.run _ _ >>= _) = _
    rw [run']
    rfl
  refine Safe.of_step step fun _ => ⟨c.plug (.node s.store.fresh .nil key value .nil), ?_, ?_, ?_⟩
  · exact (invariant.exclusion.withStore _).goto running rfl
  · refine invariant.positions.step (fun u here => goto_other here) (shape'.withOps ops') ?_ ?_ ?_ ?_ ?_
    · exact rest.mallocs.trans invariant.positions.succeeds
    · show s.store.fresh ≤ store.fresh
      rw [rest.fresh]
      exact Nat.le_succ _
    · intro u other n here found held
      apply kept_add
      apply frame n
      · rintro rfl
        exact invariant.exclusion.alone running rfl List.mem_cons_self found here held
      · exact ne_of_lt (invariant.positions.held found held).2
    · intro u other v here found isVictim
      have detached := invariant.positions.detached u other v found isVictim
      refine ⟨frame v ?_ (ne_of_lt detached.bound), ?_⟩
      · rintro rfl
        exact detached.out (owner_member c .nil)
      · intro member
        apply detached.out
        rcases List.mem_cons.mp member with rfl | inTree
        · exact List.mem_cons_self
        · rcases Ctx.mem_addrs_plug.mp inTree with inCtx | isNew
          · exact List.mem_cons_of_mem _ (Ctx.mem_addrs_plug.mpr (Or.inl inCtx))
          · obtain rfl : v = s.store.fresh := by simpa [addrs] using isNew
            exact (lt_irrefl _ detached.bound).elim
    · intro new found
      obtain rfl := Option.some.inj ((goto_self _ t _ _).symm.trans found)
      refine ⟨⟨keyShort, valueShort⟩, ?_, fun v isVictim => by cases isVictim⟩
      intro m member
      obtain rfl := List.mem_singleton.mp member
      exact Or.inl (owner_member c _)
  · have missing : (c.plug .nil : KeyTree).lookup key = none := Ctx.lookup_plug follows .nil
    refine invariant.history.step (fun u here => goto_other here) rfl ?_ ?_
    · intro k w _ found
      rw [lookup_insert shape.ordered follows, if_neg]
      · exact found
      · rintro rfl
        rw [missing] at found
        cases found
    · intro new found
      obtain rfl := Option.some.inj ((goto_self _ t _ _).symm.trans found)
      refine ⟨started, fun _ _ => ?_⟩
      rw [lookup_insert shape.ordered follows, if_pos rfl]

theorem ptr_ne_none {tree : KeyTree} (full : tree ≠ .nil) : tree.ptr ≠ none := by
  cases tree with
  | nil => exact (full rfl).elim
  | node => exact Option.some_ne_none _

/-- The locks of the other threads are apart from what `db_remove` works on: it holds two of the
nodes itself, and the rest is clear. -/
theorem Invariant.apart {c : KeyCtx} {d : NodeId} {l r : KeyTree} {u : Nat} {other : Activity}
    (invariant : Invariant s (c.plug (.node d l key value r)))
    (running : s.threads t = some ⟨.remove key, start, .compare (c.owner head) d⟩) (clear : ClearFor s t)
    (here : u ≠ t) (found : s.threads u = some other) (held : n ∈ other.pc.held) : Apart (c.owner head) d l r n := by
  have shape := invariant.positions.shape
  obtain ⟨root, _, right⟩ := (stored_plug.mp shape.stored).2
  refine ⟨?_, ?_, ?_⟩
  · rintro rfl
    exact invariant.exclusion.alone running rfl (by simp [Pc.held]) found here held
  · rintro rfl
    exact invariant.exclusion.alone running rfl (by simp [Pc.held]) found here held
  · intro leftFull rightFull inChain
    have rounds : r.addrs.length < s.store.fresh := by
      have length := shape.length_lt_fresh
      rw [(Ctx.addrs_plug c _).length_eq] at length
      simp only [addrs, List.length_append, List.length_cons] at length
      omega
    rw [← chainOf_stored r s.store.nodes s.store.fresh right rounds] at inChain
    have holds := (invariant.exclusion.table n u _).mpr ⟨other, found, held, rfl⟩
    simp only [ClearFor, running, root] at clear
    exact here (clear trivial (ptr_ne_none leftFull) (ptr_ne_none rightFull) n inChain _ holds)

theorem Invariant.removed {c : KeyCtx} {d victim : NodeId} {l r : KeyTree} {store : Store} {ops : List Op}
    (invariant : Invariant s (c.plug (.node d l key value r)))
    (running : s.threads t = some ⟨.remove key, start, .compare (c.owner head) d⟩) (clear : ClearFor s t)
    (done : Unlinked s.store store c d l key value r victim) :
    Invariant (({ s with store := store.withOps ops } : System).goto t ⟨.remove key, start, .compare (c.owner head) d⟩
      (.finish [c.owner head, d] (some victim) (.status 1))) (c.plug (removeRoot (.node d l key value r))) := by
  have shape := invariant.positions.shape
  have short := invariant.positions.short t _ running
  have inside : victim ∈ head :: (c.plug (.node d l key value r)).addrs := done.addrs.mem_iff.mpr List.mem_cons_self
  have smaller : ∀ n, n ∈ head :: (c.plug (removeRoot (.node d l key value r))).addrs →
      n ∈ head :: (c.plug (.node d l key value r)).addrs :=
    fun n member => done.addrs.mem_iff.mpr (List.mem_cons_of_mem _ member)
  refine ⟨(invariant.exclusion.withStore _).goto running rfl, ?_, ?_⟩
  · refine invariant.positions.step (fun u here => goto_other here) (done.shape.withOps ops) ?_ ?_ ?_ ?_ ?_
    · exact done.rest.mallocs.trans invariant.positions.succeeds
    · exact Nat.le_of_eq done.rest.fresh.symm
    · intro u other n here found held
      have kept := done.keeps shape (invariant.apart running clear here found held)
      exact ⟨kept.same, kept.stays, kept.onPath⟩
    · intro u other v here found isVictim
      have out := (invariant.positions.detached u other v found isVictim).out
      refine ⟨done.same ⟨?_, ?_, ?_⟩, fun member => out (smaller v member)⟩
      · rintro rfl
        exact out (owner_member c _)
      · rintro rfl
        exact out (List.mem_cons_of_mem _ (root_member c v l key value r))
      · intro _ _ inChain
        apply out
        refine List.mem_cons_of_mem _ (Ctx.mem_addrs_plug.mpr (Or.inr ?_))
        exact List.mem_cons_of_mem _ (List.mem_append_right _ (chain_subset _ _ inChain))
    · intro new found
      obtain rfl := Option.some.inj ((goto_self _ t _ _).symm.trans found)
      refine ⟨short, ?_, ?_⟩
      · intro m member
        have old : m ∈ head :: (c.plug (.node d l key value r)).addrs := by
          rcases List.mem_cons.mp member with rfl | member
          · exact owner_member c _
          · obtain rfl := List.mem_singleton.mp member
            exact List.mem_cons_of_mem _ (root_member c m l key value r)
        rcases List.mem_cons.mp (done.addrs.mem_iff.mp old) with isVictim | kept
        · exact Or.inr (congrArg some isVictim.symm)
        · exact Or.inl kept
      · intro v isVictim
        obtain rfl : victim = v := Option.some.inj isVictim
        refine ⟨done.victim_notIn shape, done.present shape inside, ?_, ?_⟩
        · exact lt_of_lt_of_eq (shape.bound _ inside) done.rest.fresh.symm
        · intro u other here found
          have found : s.threads u = some other := (goto_other here).symm.trans found
          refine ⟨fun held => ?_, fun shared => ?_⟩
          · exact done.victim_ne (invariant.apart running clear here found held) rfl
          · exact (invariant.positions.detached u other _ found shared).out inside
  · have recorded := invariant.history.recorded t _ running
    have started := invariant.history.started t _ running
    refine invariant.history.step (fun u here => goto_other here) rfl ?_ ?_
    · intro k w spared found
      rw [lookup_remove shape.ordered, if_neg]
      · exact found
      · rintro rfl
        exact recorded spared
    · intro new found
      obtain rfl := Option.some.inj ((goto_self _ t _ _).symm.trans found)
      exact ⟨started, recorded⟩

theorem Invariant.safe_remove {c : KeyCtx} {d : NodeId} {l r : KeyTree}
    (invariant : Invariant s (c.plug (.node d l key value r)))
    (running : s.threads t = some ⟨.remove key, start, .compare (c.owner head) d⟩) (follows : c.Follows key) :
    Safe s t := by
  have shape := invariant.positions.shape
  have root := (stored_plug.mp shape.stored).2.1
  obtain ⟨ops, run⟩ := (runs_node root).system
  obtain ⟨store, victim, unlink, done⟩ := shape.runs_unlinkNode follows
  obtain ⟨ops', run'⟩ := Runs.system (s := { s with store := s.store.withOps ops }) (unlink ops)
  have step : s.advance t = .ok (some (({ s with store := store.withOps ops' } : System).goto t
      ⟨.remove key, start, .compare (c.owner head) d⟩ (.finish [c.owner head, d] (some victim) (.status 1)))) := by
    simp only [System.advance, running, Call.key]
    rw [run]
    show (if strcmp key key ≠ 0 then _ else _) = _
    rw [if_neg (by simp [strcmp_eq_zero])]
    show (System.run _ _ >>= _) = _
    rw [run']
    rfl
  exact Safe.of_step step fun clear => ⟨_, invariant.removed running clear done⟩

/-- The end of a call, in which `db_remove` destroys what it took out of the tree. -/
theorem Invariant.returned {victim : Option NodeId} {result : Result} {store : Store} (invariant : Invariant s tree)
    (running : s.threads t = some ⟨call, start, .finish [] victim result⟩) (shape : Shape store tree)
    (succeeds : store.mallocs = []) (fresh : store.fresh = s.store.fresh)
    (others : ∀ n, victim ≠ some n → store.nodes n = s.store.nodes n) :
    Invariant (({ s with store := store } : System).returns t ⟨call, start, .finish [] victim result⟩ result) tree := by
  have apart : ∀ u, u ≠ t → (({ s with store := store } : System).returns t
      ⟨call, start, .finish [] victim result⟩ result).threads u = s.threads u :=
    fun u here => Function.update_of_ne here _ _
  have ended : ∀ new, (({ s with store := store } : System).returns t
      ⟨call, start, .finish [] victim result⟩ result).threads t ≠ some new := by
    intro new found
    simp [System.returns] at found
  have free : ∀ u other n, u ≠ t → s.threads u = some other → (n ∈ other.pc.held ∨ other.pc.victim = some n) →
      victim ≠ some n := by
    intro u other n here found uses isVictim
    have mine := (invariant.positions.detached t _ n running isVictim).free u other here found
    rcases uses with held | shared
    · exact mine.1 held
    · exact mine.2 shared
  refine ⟨?_, ?_, ?_⟩
  · refine (invariant.exclusion.withStore store).idle ?_ (fun act isNext => by cases isNext) _
    intro act isRunning
    obtain rfl := Option.some.inj (running.symm.trans isRunning)
    rfl
  · apply invariant.positions.step apart shape succeeds (Nat.le_of_eq fresh.symm)
    · intro u other n here found held
      exact ⟨others n (free u other n here found (Or.inl held)), id, fun _ => id⟩
    · intro u other v here found isVictim
      exact ⟨others v (free u other v here found (Or.inr isVictim)),
        (invariant.positions.detached u other v found isVictim).out⟩
    · exact fun new found => (ended new found).elim
  · have recorded := invariant.history.recorded t _ running
    have started := invariant.history.started t _ running
    refine invariant.history.append apart rfl (fun new found => (ended new found).elim) ?_ ?_
    · intro u key value begun isEvent spared
      simp only [Event.returned.injEq] at isEvent
      obtain ⟨_, rfl, _, rfl⟩ := isEvent
      exact recorded rfl spared
    · intro u key begun answer isEvent
      simp only [Event.returned.injEq] at isEvent
      obtain ⟨_, rfl, rfl, rfl⟩ := isEvent
      exact ⟨started, fun value => recorded _ value rfl⟩

theorem Invariant.safe_return {victim : Option NodeId} {result : Result} (invariant : Invariant s tree)
    (running : s.threads t = some ⟨call, start, .finish [] victim result⟩) : Safe s t := by
  have shape := invariant.positions.shape
  have succeeds := invariant.positions.succeeds
  cases victim with
  | none =>
    have step : s.advance t = .ok (some (s.returns t ⟨call, start, .finish [] none result⟩ result)) := by
      simp only [System.advance, running]
      rfl
    exact Safe.of_step step fun _ => ⟨tree, invariant.returned running shape succeeds rfl fun _ _ => rfl⟩
  | some v =>
    have detached := invariant.positions.detached t _ v running rfl
    obtain ⟨content, found⟩ := detached.present
    obtain ⟨ops, run⟩ := (runs_nodeDestructor found).system
    have step : s.advance t = .ok (some (({ s with store := (s.store.put v none).withOps ops } : System).returns t
        ⟨call, start, .finish [] (some v) result⟩ result)) := by
      simp only [System.advance, running]
      rw [run]
      rfl
    refine Safe.of_step step fun _ => ⟨tree, invariant.returned running ?_ succeeds rfl ?_⟩
    · exact (shape.forget detached.out).withOps ops
    · intro n different
      exact Function.update_of_ne (fun equal => different (congrArg some equal.symm)) _ _

theorem Invariant.safe_visit (invariant : Invariant s tree) (running : s.threads t = some ⟨call, start, .visit p⟩) :
    Safe s t := by
  have shape := invariant.positions.shape
  have recorded := invariant.history.recorded t _ running
  have onWay : OnWay s.store.nodes tree call.key p := invariant.positions.placed t _ running
  have inTree := onWay.member shape
  obtain ⟨c, below, rfl, follows, rfl⟩ := onWay.hole shape
  obtain ⟨v, owner, child⟩ := shape.owner follows
  have runs : Runs (childFor call.key (c.owner head)) s.store below.ptr s.store := by
    rw [← child]
    exact runs_childFor owner
  have finished : ∀ result, Placed s.store.nodes (c.plug below) call.key (.finish [c.owner head] none result) := by
    intro result m member
    obtain rfl := List.mem_singleton.mp member
    exact Or.inl inTree
  cases below with
  | node a l k value r =>
    refine invariant.safe_goto (.wait (c.owner head) a) running runs ?_ rfl ⟨onWay, v, owner, child⟩ rfl
      (recorded.move (Or.inl rfl))
    intro ops run
    simp only [System.advance, running]
    rw [run]
    rfl
  | nil =>
    cases call with
    | query key =>
      refine invariant.safe_goto (.finish [c.owner head] none .notFound) running runs ?_ rfl (finished _) rfl ?_
      · intro ops run
        simp only [System.advance, running]
        rw [run]
        rfl
      · intro result value isResult spared added
        obtain ⟨u, begun, member⟩ := added.mem
        have known := invariant.history.added u key value begun member spared
        have missing : (c.plug .nil : KeyTree).lookup key = none := Ctx.lookup_plug follows .nil
        rw [missing] at known
        cases known
    | remove key =>
      refine invariant.safe_goto (.finish [c.owner head] none (.status 0)) running runs ?_ rfl (finished _) rfl recorded
      intro ops run
      simp only [System.advance, running]
      rw [run]
      rfl
    | add key value => exact invariant.safe_add running follows runs

theorem Invariant.safe_compare (invariant : Invariant s tree)
    (running : s.threads t = some ⟨call, start, .compare p next⟩) : Safe s t := by
  have shape := invariant.positions.shape
  have recorded := invariant.history.recorded t _ running
  obtain ⟨onWay, v, found, child⟩ := invariant.positions.placed t _ running
  have inTree := onWay.member shape
  obtain ⟨c, l, k, value, r, rfl, follows, rfl⟩ := onWay.child shape found child
  have root := (stored_plug.mp shape.stored).2.1
  have runs := runs_node root
  have nextTree := root_member c next l k value r
  have nextPath : next ∈ (c.plug (.node next l k value r)).path call.key := by
    rw [Ctx.path_plug follows]
    exact List.mem_append_right _ List.mem_cons_self
  by_cases same : call.key = k
  · have equal : ¬strcmp call.key k ≠ 0 := by simpa [strcmp_eq_zero] using same
    cases call with
    | query key =>
      refine invariant.safe_goto (.hit (c.owner head) next) running runs ?_ rfl ⟨inTree, nextTree, _, root, same.symm⟩ rfl
        (recorded.move (Or.inl rfl))
      intro ops run
      simp only [System.advance, running]
      rw [run]
      exact if_neg equal
    | add key value' =>
      refine invariant.safe_goto (.finish [c.owner head, next] none (.status 0)) running runs ?_ rfl ?_ rfl ?_
      · intro ops run
        simp only [System.advance, running]
        rw [run]
        exact if_neg equal
      · intro m member
        rcases List.mem_cons.mp member with rfl | member
        · exact Or.inl inTree
        · obtain rfl := List.mem_singleton.mp member
          exact Or.inl (List.mem_cons_of_mem _ nextTree)
      · exact fun isResult => by cases isResult
    | remove key =>
      obtain rfl : key = k := same
      exact invariant.safe_remove running follows
  · have different : strcmp call.key k ≠ 0 := by simpa [strcmp_eq_zero] using same
    refine invariant.safe_goto (.descend (c.owner head) next) running runs ?_ rfl ⟨inTree, nextPath, _, root, Ne.symm same⟩
      rfl (recorded.move (Or.inl rfl))
    intro ops run
    simp only [System.advance, running]
    rw [run]
    exact if_pos different

end

theorem Invariant.safe (invariant : Invariant s tree) (t : Nat) : Safe s t := by
  cases running : s.threads t with
  | none =>
    refine ⟨none, ?_, ?_⟩
    · simp only [System.advance, running]
      rfl
    · rintro _ s' ⟨⟩
  | some act =>
    obtain ⟨call, start, pc⟩ := act
    cases pc with
    | start => exact invariant.safe_start running
    | visit p => exact invariant.safe_visit running
    | wait p next => exact invariant.safe_wait running
    | compare p next => exact invariant.safe_compare running
    | descend p next => exact invariant.safe_descend running
    | hit p target => exact invariant.safe_hit running
    | reading target => exact invariant.safe_reading running
    | finish unlocks victim result =>
      cases unlocks with
      | cons n unlocks => exact invariant.safe_unlocks running
      | nil => exact invariant.safe_return running

/-! ### Whole runs -/

theorem invariant_initial : Invariant System.initial .nil := ⟨exclusion_initial, positions_initial, history_initial⟩

theorem Invariant.invoke (invariant : Invariant s tree) (idle : s.threads t = none) {call : Call} (short : call.Short) :
    Invariant (s.invoke t call) tree := by
  have others : ∀ u, u ≠ t → (s.invoke t call).threads u = s.threads u := fun u here => Function.update_of_ne here _ _
  have isNew : ∀ new, (s.invoke t call).threads t = some new → new = ⟨call, s.log.length, .start⟩ := by
    intro new found
    simpa [System.invoke, eq_comm] using found
  refine ⟨?_, ?_, ?_⟩
  · refine invariant.exclusion.idle ?_ ?_ _
    · intro act running
      rw [idle] at running
      cases running
    · intro act isNext
      obtain rfl := Option.some.inj isNext
      rfl
  · apply invariant.positions.quiet others (show s.store = s.store.withOps s.store.ops from rfl)
    intro new found
    rw [isNew new found]
    exact ⟨short, trivial, fun v isVictim => by cases isVictim⟩
  · refine invariant.history.append others rfl ?_ (fun u key value start isEvent => by cases isEvent)
      (fun u key start result isEvent => by cases isEvent)
    intro new found
    rw [isNew new found]
    refine ⟨Nat.le_refl _, ?_⟩
    cases call with
    | query key => exact fun result value isResult => by cases isResult
    | add key value => exact fun isResult => by cases isResult
    | remove key => exact fun spared => spared t (by simp [System.invoke])

theorem Invariant.step {action : Action} (invariant : Invariant s tree) (clear : Clear s action)
    (run : s.act action = .ok (some s')) : ∃ tree, Invariant s' tree := by
  cases action with
  | invoke t call =>
    obtain ⟨idle, short, rfl⟩ := System.act_invoke run
    exact ⟨tree, invariant.invoke idle short⟩
  | advance t =>
    obtain ⟨next, step, keeps⟩ := invariant.safe t
    exact keeps clear _ (Except.ok.inj (step.symm.trans run))

theorem interleaving_invariant (reachable : Interleaving Clear s) : ∃ tree, Invariant s tree := by
  have start : ∃ tree, Invariant System.initial tree := ⟨.nil, invariant_initial⟩
  refine Transition.Reachable.invariant (P := fun s => ∃ tree, Invariant s tree) reachable start ?_
  intro s s' action before clear run
  obtain ⟨tree, invariant⟩ := before
  exact invariant.step clear run

/-- The next step of every thread uses no destroyed node, and every query that was started after
the `db_add` of its key had returned 1 found the added value, unless a `db_remove` of the key was
invoked. -/
def NoUpdateLost (s : System) : Prop :=
  (∀ t, ∃ next, s.advance t = .ok next) ∧
    ∀ t key start result value, Event.returned t (.query key) start result ∈ s.log →
      AddedBefore s.log start key value → Spared s.log key → result = .value value

theorem interleaving_noUpdateLost (reachable : Interleaving Clear s) : NoUpdateLost s := by
  obtain ⟨tree, invariant⟩ := interleaving_invariant reachable
  refine ⟨fun t => ?_, fun t key start result value returned added spared => ?_⟩
  · obtain ⟨next, step, _⟩ := invariant.safe t
    exact ⟨next, step⟩
  · exact (invariant.history.answered t key start result returned).2 value spared added

/-- Keys `m`, `c` and `t`, then a query of `t` that stops before it reads the value. -/
def threeKeys : List Action :=
  Action.invoke 0 (.add (text "m") (text "1")) :: List.replicate 4 (Action.advance 0) ++
  Action.invoke 0 (.add (text "c") (text "2")) :: List.replicate 8 (Action.advance 0) ++
  Action.invoke 0 (.add (text "t") (text "3")) :: List.replicate 8 (Action.advance 0) ++
  Action.invoke 0 (.query (text "t")) :: List.replicate 9 (Action.advance 0)

theorem noUpdateLost_clear_removal : ∃ s, Transition.follow System.act Clear (threeKeys ++ List.replicate 2 (.advance 0) ++
    .invoke 1 (.remove (text "m")) :: List.replicate 7 (.advance 1)) System.initial = some s ∧ NoUpdateLost s := by
  obtain ⟨s, found⟩ := Option.isSome_iff_exists.mp (show (Transition.follow System.act Clear (threeKeys ++ List.replicate 2 (.advance 0) ++
    .invoke 1 (.remove (text "m")) :: List.replicate 7 (.advance 1)) System.initial).isSome = true by decide +kernel)
  exact ⟨s, found, interleaving_noUpdateLost (Transition.follow_reachable .initial found)⟩

/-- The query still holds the lock of `t` when `db_remove` of `m` destroys that node. -/
theorem successor_destroyed_under_query : ∃ s, Interleaving (fun _ _ => True) s ∧ s.advance 0 = .error (.destroyed 3) := by
  have run : ((Transition.follow System.act (fun _ _ => True) (threeKeys ++ .invoke 1 (.remove (text "m")) :: List.replicate 7 (.advance 1))
      System.initial).map fun s => match s.advance 0 with
        | .error fault => some fault
        | .ok _ => none) = some (some (.destroyed 3)) := by decide +kernel
  obtain ⟨s, found, faults⟩ := Option.map_eq_some_iff.mp run
  refine ⟨s, Transition.follow_reachable .initial found, ?_⟩
  split at faults
  · rename_i fault isFault
    rw [isFault, Option.some.inj faults]
  · cases faults

end Cs1330.Db
