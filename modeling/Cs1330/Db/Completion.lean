import Mathlib.Algebra.Order.BigOperators.Group.Finset
import Mathlib.Data.Set.Finite.Basic
import Cs1330.Db.Linearize

/-!
# Every call comes to its end

However the threads are scheduled, some thread gets on as long as a call is open: who waits for a
lock waits for a thread that is further down in the tree. And the calls that are open take a
bounded number of steps, since a search only goes down and only the additions still to be made can
make its way longer.
-/

namespace Cs1330.Db
open SearchTree SearchTree.Tree

variable {s s' : System} {tree tree' : KeyTree} {t : Nat} {act : Activity} {pc : Pc} {n : NodeId} {mode : Mode}
  {key value : CString}

/-! ### Some thread gets on -/

def Held (s : System) (n : NodeId) : Prop := ∃ u other, s.threads u = some other ∧ n ∈ other.pc.held

/-- The thread can take a step, and is not removing a node in the way of another thread. -/
def Able (s : System) (t : Nat) : Prop := ClearFor s t ∧ ∃ s', s.advance t = .ok (some s')

/-- What keeps a thread from its next step. -/
inductive Stuck (s : System) : Pc → Prop
  | start : Held s head → Stuck s .start
  | wait (p next : NodeId) : Held s next → Stuck s (.wait p next)
  | walk (p d : NodeId) (v : Node) (n : NodeId) : s.store.nodes d = some v →
      n ∈ chainOf s.store.nodes s.store.fresh v.rchild → Held s n → Stuck s (.compare p d)

theorem Exclusion.held_of_refused (exclusion : Exclusion s) (refused : ¬s.CanLock mode n) : Held s n := by
  have occupied : s.holders n ≠ [] := by
    intro free
    apply refused
    cases mode with
    | read => simp [System.CanLock, free]
    | write => exact free
  obtain ⟨⟨u, mode'⟩, member⟩ := List.exists_mem_of_ne_nil _ occupied
  obtain ⟨other, running, held, _⟩ := (exclusion.table n u mode').mp member
  exact ⟨u, other, running, held⟩

theorem System.lock_refused (run : s.lock t act mode n pc = .ok none) : ¬s.CanLock mode n := by
  unfold System.lock at run
  obtain ⟨⟨_, middle⟩, executed, run⟩ := Run.except_bind run
  obtain ⟨store, rfl⟩ := System.run_ok executed
  change (if System.CanLock { s with store := store } mode n then _ else _) = _ at run
  split at run
  · cases run
  · assumption

theorem System.unlock_granted (run : s.unlock t act n pc = .ok none) : False := by
  unfold System.unlock at run
  obtain ⟨⟨_, middle⟩, _, run⟩ := Run.except_bind run
  cases run

/-- A thread in a call only ever waits for a lock. -/
theorem System.advance_refused (running : s.threads t = some act) (run : s.advance t = .ok none) :
    act.pc = .start ∧ ¬s.CanLock .write head ∨ ∃ p next, act.pc = .wait p next ∧ ¬s.CanLock act.call.mode next := by
  unfold System.advance at run
  rw [running] at run
  obtain ⟨call, start, pc⟩ := act
  cases pc with
  | start => exact Or.inl ⟨rfl, System.lock_refused run⟩
  | visit p =>
    obtain ⟨⟨next, middle⟩, _, run⟩ := Run.except_bind run
    cases next with
    | some next => cases run
    | none =>
      cases call with
      | query key => cases run
      | add key value =>
        obtain ⟨⟨_, last⟩, _, run⟩ := Run.except_bind run
        cases run
      | remove key => cases run
  | wait p next => exact Or.inr ⟨p, next, rfl, System.lock_refused run⟩
  | compare p next =>
    obtain ⟨⟨content, middle⟩, _, run⟩ := Run.except_bind run
    by_cases different : strcmp call.key content.key ≠ 0
    · simp only [if_pos different] at run
      cases run
    · simp only [if_neg different] at run
      cases call with
      | query key => cases run
      | add key value => cases run
      | remove key =>
        obtain ⟨⟨_, last⟩, _, run⟩ := Run.except_bind run
        cases run
  | descend p next => exact (System.unlock_granted run).elim
  | hit p target => exact (System.unlock_granted run).elim
  | reading target =>
    obtain ⟨⟨content, middle⟩, _, run⟩ := Run.except_bind run
    cases run
  | finish unlocks victim result =>
    cases unlocks with
    | cons n unlocks => exact (System.unlock_granted run).elim
    | nil =>
      cases victim with
      | none => cases run
      | some victim =>
        obtain ⟨⟨_, last⟩, _, run⟩ := Run.except_bind run
        cases run

theorem Exclusion.stuck_of_unclear (exclusion : Exclusion s) (running : s.threads t = some act) (unclear : ¬ClearFor s t) :
    Stuck s act.pc := by
  unfold ClearFor at unclear
  split at unclear
  · rename_i key start p d same
    obtain rfl := Option.some.inj (running.symm.trans same)
    split at unclear
    · rename_i v found
      simp only [not_forall] at unclear
      obtain ⟨_, _, _, n, inChain, ⟨u, mode⟩, member, _⟩ := unclear
      obtain ⟨other, isOther, held, _⟩ := (exclusion.table n u mode).mp member
      exact .walk p d v n found inChain ⟨u, other, isOther, held⟩
    · exact (unclear trivial).elim
  · exact (unclear trivial).elim

theorem Invariant.able_or_stuck (invariant : Invariant s tree) (running : s.threads t = some act) :
    Able s t ∨ Stuck s act.pc := by
  by_cases clear : ClearFor s t
  · obtain ⟨next, step, _⟩ := invariant.safe t
    cases next with
    | some s' => exact Or.inl ⟨clear, s', step⟩
    | none =>
      right
      rcases System.advance_refused running step with ⟨isStart, refused⟩ | ⟨p, next, isWait, refused⟩
      · rw [isStart]
        exact .start (invariant.exclusion.held_of_refused refused)
      · rw [isWait]
        exact .wait p next (invariant.exclusion.held_of_refused refused)
  · exact Or.inr (invariant.exclusion.stuck_of_unclear running clear)

theorem childOf_mem {l r : KeyTree} {k : CString} {next : NodeId} (child : childOf key ⟨k, value, l.ptr, r.ptr⟩ = some next) :
    next ∈ l.addrs ∨ next ∈ r.addrs := by
  have root : ∀ t : KeyTree, t.ptr = some next → next ∈ t.addrs := by
    intro t isRoot
    cases t with
    | nil => cases isRoot
    | node a l k v r =>
      obtain rfl := Option.some.inj isRoot
      exact List.mem_cons_self
  unfold childOf at child
  split at child
  · exact Or.inl (root l child)
  · exact Or.inr (root r child)

theorem Shape.chainOf_right {c : KeyCtx} {d : NodeId} {l r : KeyTree} {store : Store}
    (shape : Shape store (c.plug (.node d l key value r))) : chainOf store.nodes store.fresh r.ptr = r.chain := by
  obtain ⟨_, _, right⟩ := (stored_plug.mp shape.stored).2
  apply chainOf_stored r _ _ right
  have length := shape.length_lt_fresh
  rw [(Ctx.addrs_plug c _).length_eq] at length
  simp only [addrs, List.length_append, List.length_cons] at length
  omega

/-- Who has a lock in a part of the tree can get on, or somebody further down can. -/
theorem Invariant.held_able (part : KeyTree) : ∀ {c : KeyCtx} {n : NodeId}, Invariant s (c.plug part) → n ∈ part.addrs →
    Held s n → ∃ u, Able s u := by
  induction part with
  | nil =>
    intro c n _ member
    cases member
  | node a l k value r ihl ihr =>
    intro c n invariant member held
    have shape := invariant.positions.shape
    have root := (stored_plug.mp shape.stored).2.1
    have deeper : ∀ m, m ∈ l.addrs ∨ m ∈ r.addrs → Held s m → ∃ u, Able s u := by
      rintro m (inLeft | inRight) held
      · exact ihl (c := c.left a k value r) invariant inLeft held
      · exact ihr (c := c.right a l k value) invariant inRight held
    rcases List.mem_cons.mp member with rfl | inside
    · obtain ⟨u, other, running, locked⟩ := held
      rcases invariant.able_or_stuck running with able | stuck
      · exact ⟨u, able⟩
      · have placed := invariant.positions.placed u other running
        obtain ⟨call, start, pc⟩ := other
        cases stuck with
        | start => cases locked
        | wait p next held =>
          obtain rfl : n = p := by simpa [Pc.held] using locked
          obtain ⟨_, v, found, child⟩ := placed
          obtain rfl := Option.some.inj (root.symm.trans found)
          exact deeper next (childOf_mem child) held
        | walk p d v m found inChain held =>
          have either : n = p ∨ n = d := by simpa [Pc.held] using locked
          rcases either with rfl | rfl
          · obtain ⟨_, w, owner, child⟩ := placed
            obtain rfl := Option.some.inj (root.symm.trans owner)
            exact deeper d (childOf_mem child) ⟨u, _, running, by simp [Pc.held]⟩
          · obtain rfl := Option.some.inj (root.symm.trans found)
            rw [shape.chainOf_right] at inChain
            exact deeper m (Or.inr (chain_subset _ _ inChain)) held
    · exact deeper n (List.mem_append.mp inside) held

/-- As long as a thread is in a call, some thread can get on. -/
theorem Invariant.able (invariant : Invariant s tree) (running : s.threads t = some act) : ∃ u, Able s u := by
  have inTree : ∀ m ∈ tree.addrs, Held s m → ∃ u, Able s u :=
    fun m member held => Invariant.held_able tree (c := .top) invariant member held
  have child : ∀ u call start p next, s.threads u = some ⟨call, start, .wait p next⟩ ∨ s.threads u = some ⟨call, start, .compare p next⟩ →
      next ∈ tree.addrs := by
    intro u call start p next found
    have placed : OnWay s.store.nodes tree call.key p ∧ ∃ v, s.store.nodes p = some v ∧ childOf call.key v = some next := by
      rcases found with found | found
      · exact invariant.positions.placed u _ found
      · exact invariant.positions.placed u _ found
    obtain ⟨onWay, v, found, child⟩ := placed
    obtain ⟨c, l, k, value, r, rfl, _⟩ := onWay.child invariant.positions.shape found child
    exact root_member c next l k value r
  -- A thread that waits for the lock of `head` is not the only one that is stuck.
  have beyond : ∀ u other, s.threads u = some other → Stuck s other.pc → other.pc ≠ .start → ∃ u, Able s u := by
    intro u other running stuck begun
    obtain ⟨call, start, pc⟩ := other
    cases stuck with
    | start => exact (begun rfl).elim
    | wait p next held => exact inTree next (child u call start p next (Or.inl running)) held
    | walk p d v m found inChain held =>
      exact inTree d (child u call start p d (Or.inr running)) ⟨u, _, running, by simp [Pc.held]⟩
  rcases invariant.able_or_stuck running with able | stuck
  · exact ⟨t, able⟩
  · by_cases begun : act.pc = .start
    · rw [begun] at stuck
      cases stuck with
      | start held =>
        obtain ⟨u, other, running, locked⟩ := held
        rcases invariant.able_or_stuck running with able | stuck
        · exact ⟨u, able⟩
        · refine beyond u other running stuck ?_
          intro isStart
          rw [isStart] at locked
          cases locked
    · exact beyond t act running stuck begun

/-! ### What is left to do -/

/-- The nodes that a search can still come to from `p`. -/
def ahead (tree : KeyTree) (p : NodeId) : Nat := if p = head then tree.addrs.length else tree.under p

/-- The nodes that the call is still going to add, at most. -/
def Activity.adding (nodes : NodeId → Option Node) (act : Activity) : Nat :=
  match act.call with
  | .add _ _ => if act.answer nodes = none then 1 else 0
  | _ => 0

def System.adding (s : System) (t : Nat) : Nat := (s.threads t).elim 0 fun act => act.adding s.store.nodes

/-- A bound for the steps of a thread, when the threads are going to add `u` nodes. -/
def Pc.work (tree : KeyTree) (u : Nat) : Pc → Nat
  | start => 4 * (tree.addrs.length + u) + 10
  | visit p => 4 * (ahead tree p + u) + 9
  | wait p _ => 4 * (ahead tree p + u) + 8
  | compare p _ => 4 * (ahead tree p + u) + 7
  | descend _ next => 4 * (ahead tree next + u) + 10
  | hit _ _ => 4
  | reading _ => 3
  | finish unlocks _ _ => unlocks.length + 1

def System.work (s : System) (tree : KeyTree) (u t : Nat) : Nat := (s.threads t).elim 0 fun act => act.pc.work tree u

theorem ahead_le (tree : KeyTree) (p : NodeId) : ahead tree p ≤ tree.addrs.length := by
  unfold ahead
  split
  · exact Nat.le_refl _
  · exact under_le p tree

theorem ahead_grows {more : Nat} (grows : GrowsBy more tree tree') (p : NodeId) : ahead tree' p ≤ ahead tree p + more := by
  unfold ahead
  split
  · exact grows.1
  · exact grows.2 p

theorem Pc.work_mono {more u u' : Nat} (grows : GrowsBy more tree tree') (fewer : u' + more ≤ u) (pc : Pc) :
    pc.work tree' u' ≤ pc.work tree u := by
  cases pc with
  | start =>
    have size := grows.1
    simp only [work]
    omega
  | visit p =>
    have way := ahead_grows grows p
    simp only [work]
    omega
  | wait p next =>
    have way := ahead_grows grows p
    simp only [work]
    omega
  | compare p next =>
    have way := ahead_grows grows p
    simp only [work]
    omega
  | descend p next =>
    have way := ahead_grows grows next
    simp only [work]
    omega
  | hit p target => exact Nat.le_refl _
  | reading target => exact Nat.le_refl _
  | finish unlocks victim result => exact Nat.le_refl _

/-- One level down, fewer nodes are ahead. -/
theorem Shape.ahead_child {c : KeyCtx} {a : NodeId} {l r : KeyTree} {store : Store}
    (shape : Shape store (c.plug (.node a l key value r))) :
    ahead (c.plug (.node a l key value r)) a < ahead (c.plug (.node a l key value r)) (c.owner head) := by
  have notHead : a ≠ head := by
    rintro rfl
    exact shape.head_notMem (root_member c head l key value r)
  have distinct := (List.nodup_cons.mp shape.ctx_distinct).2
  have inside : a ∈ addrs (.node a l key value r : KeyTree) := List.mem_cons_self
  have outside : a ∉ c.addrs := fun member => List.disjoint_of_nodup_append distinct member inside
  have fewer := under_lt inside
  rw [ahead, if_neg notHead, under_plug outside]
  cases c with
  | top => rwa [Ctx.owner, ahead, if_pos rfl]
  | left c b k v right =>
    have bNotHead : b ≠ head := by
      rintro rfl
      exact shape.head_notMem (root_member c head (.node a l key value r) k v right)
    have bOutside : b ∉ c.addrs := fun member =>
      (List.nodup_cons.mp (List.nodup_append.mp distinct).1).1 (List.mem_append_right _ member)
    rw [Ctx.owner, ahead, if_neg bNotHead, Ctx.plug, under_plug bOutside, under_root b]
    omega
  | right c b left k v =>
    have bNotHead : b ≠ head := by
      rintro rfl
      exact shape.head_notMem (root_member c head left k v (.node a l key value r))
    have bOutside : b ∉ c.addrs := fun member =>
      (List.nodup_cons.mp (List.nodup_append.mp distinct).1).1 (List.mem_append_right _ member)
    rw [Ctx.owner, ahead, if_neg bNotHead, Ctx.plug, under_plug bOutside, under_root b]
    omega

theorem Pc.Next.work {u : Nat} {pc' : Pc} {store : Store} (next : pc.Next pc') (shape : Shape store tree)
    (placed : Placed store.nodes tree key pc) : pc'.work tree u < pc.work tree u := by
  cases next with
  | start =>
    simp only [Pc.work, ahead, if_pos]
    omega
  | other p next =>
    obtain ⟨onWay, v, found, child⟩ := placed
    obtain ⟨c, l, k, value, r, rfl, _, rfl⟩ := onWay.child shape found child
    have closer := shape.ahead_child
    simp only [Pc.work]
    omega
  | _ =>
    simp only [Pc.work, List.length_cons, List.length_nil]
    omega

theorem Pc.work_pos (u : Nat) (pc : Pc) : 0 < pc.work tree u := by
  cases pc <;> simp [Pc.work]

/-! ### One step leaves less to do -/

theorem Activity.adding_le_one (nodes : NodeId → Option Node) (act : Activity) : act.adding nodes ≤ 1 := by
  unfold Activity.adding
  split
  · split <;> omega
  · omega

theorem Activity.adding_congr {nodes nodes' : NodeId → Option Node} {pc : Pc}
    (same : Activity.answer nodes' { act with pc := pc } = act.answer nodes) :
    Activity.adding nodes' { act with pc := pc } = act.adding nodes := by
  unfold Activity.adding
  rw [same]

theorem Activity.adding_answered {nodes : NodeId → Option Node} {result : Result} (answered : act.answer nodes = some result) :
    act.adding nodes = 0 := by
  unfold Activity.adding
  rw [answered]
  cases act.call <;> rfl

/-- What the threads of `busy` are still going to add. -/
def System.additions (s : System) (busy : Finset Nat) : Nat := ∑ t ∈ busy, s.adding t

variable {busy : Finset Nat}

/-- The tree grows by what a thread is no longer going to add. -/
theorem Progress.grows (progress : Progress s s' tree tree' t act) (running : s.threads t = some act) (member : t ∈ busy) :
    ∃ more, GrowsBy more tree tree' ∧ s'.additions busy + more ≤ s.additions busy := by
  have others : ∀ u, u ≠ t → s'.adding u = s.adding u := by
    intro u here
    unfold System.adding
    rw [progress.effect.elsewhere here]
    cases found : s.threads u with
    | none => rfl
    | some other =>
      have same := progress.others u other here found
      simp only [Option.elim_some, Activity.adding, same]
  have before : s.adding t = act.adding s.store.nodes := by rw [System.adding, running, Option.elim_some]
  have each : s'.adding t ≤ s.adding t → ∀ u ∈ busy, s'.adding u ≤ s.adding u := by
    intro own u _
    by_cases here : u = t
    · subst here
      exact own
    · exact Nat.le_of_eq (others u here)
  have unchanged : s'.adding t ≤ s.adding t → s'.additions busy + 0 ≤ s.additions busy :=
    fun own => Finset.sum_le_sum (each own)
  cases progress.effect with
  | moves pc threads log next same answer =>
    subst same
    refine ⟨0, ⟨Nat.le_refl _, fun p => Nat.le_refl _⟩, unchanged ?_⟩
    rw [before, System.adding, threads, Function.update_self, Option.elim_some, Activity.adding_congr answer]
  | returns result threads log same answer =>
    subst same
    refine ⟨0, ⟨Nat.le_refl _, fun p => Nat.le_refl _⟩, unchanged ?_⟩
    rw [System.adding, threads, Function.update_self]
    exact Nat.zero_le _
  | performs pc threads log next change undecided answer lookup =>
    have after : s'.adding t = 0 := by
      rw [System.adding, threads, Function.update_self, Option.elim_some, Activity.adding_answered answer]
    have less : s'.adding t ≤ s.adding t := by
      rw [after]
      exact Nat.zero_le _
    obtain ⟨call, start, old⟩ := act
    cases change with
    | none => exact ⟨0, ⟨Nat.le_refl _, fun p => Nat.le_refl _⟩, unchanged less⟩
    | remove c d l key value r => exact ⟨0, growsBy_removeRoot c d l key value r, unchanged less⟩
    | insert c a key value =>
      refine ⟨1, growsBy_insert c a key value, ?_⟩
      have one : s.adding t = 1 := by
        rw [before]
        exact if_pos undecided
      have less : ∑ u ∈ busy, s'.adding u < ∑ u ∈ busy, s.adding u :=
        Finset.sum_lt_sum (each less) ⟨t, member, by omega⟩
      exact less

theorem Progress.work_lt (progress : Progress s s' tree tree' t act) (invariant : Invariant s tree)
    (running : s.threads t = some act) (member : t ∈ busy) :
    ∑ u ∈ busy, s'.work tree' (s'.additions busy) u < ∑ u ∈ busy, s.work tree (s.additions busy) u := by
  obtain ⟨more, grows, fewer⟩ := progress.grows running member
  have placed := invariant.positions.placed t act running
  have before : s.work tree (s.additions busy) t = act.pc.work tree (s.additions busy) := by
    rw [System.work, running, Option.elim_some]
  have own : s'.work tree' (s'.additions busy) t < s.work tree (s.additions busy) t := by
    rw [before]
    have stepped : ∀ pc, act.pc.Next pc → s'.threads = Function.update s.threads t (some { act with pc := pc }) →
        s'.work tree' (s'.additions busy) t < act.pc.work tree (s.additions busy) := by
      intro pc next threads
      rw [System.work, threads, Function.update_self, Option.elim_some]
      exact Nat.lt_of_le_of_lt (Pc.work_mono grows fewer pc) (next.work invariant.positions.shape placed)
    cases progress.effect with
    | moves pc threads log next => exact stepped pc next threads
    | performs pc threads log next => exact stepped pc next threads
    | returns result threads =>
      rw [System.work, threads, Function.update_self]
      exact Pc.work_pos _ _
  apply Finset.sum_lt_sum
  · intro u inBusy
    by_cases here : u = t
    · subst here
      exact Nat.le_of_lt own
    · rw [System.work, System.work, progress.effect.elsewhere here]
      cases s.threads u with
      | none => exact Nat.le_refl _
      | some other => exact Pc.work_mono grows fewer other.pc
  · exact ⟨t, member, own⟩

/-! ### Whole runs -/

theorem Pc.work_le {u : Nat} {store : Store} (distinct : pc.held.Nodup) (placed : Placed store.nodes tree key pc) :
    pc.work tree u ≤ 4 * (tree.addrs.length + u) + 10 := by
  cases pc with
  | finish unlocks victim result =>
    have inside : unlocks ⊆ head :: tree.addrs ++ victim.toList := by
      intro n member
      rcases placed n member with inTree | rfl
      · exact List.mem_append_left _ inTree
      · exact List.mem_append_right _ (by simp)
    have length : unlocks.length ≤ _ := (List.Nodup.subperm distinct inside).length_le
    have atMostOne : victim.toList.length ≤ 1 := by cases victim <;> simp
    simp only [List.length_append, List.length_cons] at length
    simp only [work]
    omega
  | start => exact Nat.le_refl _
  | visit p =>
    have way := ahead_le tree p
    simp only [work]
    omega
  | wait p next =>
    have way := ahead_le tree p
    simp only [work]
    omega
  | compare p next =>
    have way := ahead_le tree p
    simp only [work]
    omega
  | descend p next =>
    have way := ahead_le tree next
    simp only [work]
    omega
  | _ =>
    simp only [work]
    omega

theorem System.adding_le_one (s : System) (t : Nat) : s.adding t ≤ 1 := by
  unfold System.adding
  cases s.threads t with
  | none => exact Nat.zero_le _
  | some act => exact act.adding_le_one _

theorem Invariant.work_le (invariant : Invariant s tree) (busy : Finset Nat) :
    ∑ t ∈ busy, s.work tree (s.additions busy) t ≤ busy.card * (4 * (tree.addrs.length + busy.card) + 10) := by
  have additions : s.additions busy ≤ busy.card := by
    refine (Finset.sum_le_card_nsmul busy _ 1 fun t _ => s.adding_le_one t).trans ?_
    simp
  apply Finset.sum_le_card_nsmul busy
  intro t _
  unfold System.work
  cases running : s.threads t with
  | none => exact Nat.zero_le _
  | some act =>
    have distinct := invariant.exclusion.nodup t act running
    have bound := Pc.work_le (u := s.additions busy) distinct (invariant.positions.placed t act running)
    rw [Option.elim_some]
    omega

theorem interleaving_finite (reachable : Interleaving Clear s) : {t | s.threads t ≠ none}.Finite := by
  refine Transition.Reachable.invariant (P := fun s => {t | s.threads t ≠ none}.Finite) reachable ?_ ?_
  · simp [System.initial]
  · intro s s' action finite _ run
    refine (finite.insert action.thread).subset ?_
    intro t running
    by_cases here : t = action.thread
    · exact Or.inl here
    · refine Or.inr ?_
      change s.threads t ≠ none
      rwa [← System.act_others run here]

/-- However the threads are scheduled from `s` on, and without new calls, they take at most `bound`
steps, and as long as a call is open, some thread can take the next one. -/
def Completes (s : System) (bound : Nat) : Prop :=
  ∀ (schedule : List Nat) (s' : System), Transition.follow System.act Clear (schedule.map Action.advance) s = some s' →
    schedule.length ≤ bound ∧ ((∀ t, s'.threads t = none) ∨ ∃ t, Able s' t)

theorem interleaving_completes (reachable : Interleaving Clear s) : ∃ (tree : KeyTree) (busy : Finset Nat),
    Shape s.store tree ∧ (∀ t, t ∈ busy ↔ s.threads t ≠ none) ∧
      Completes s (busy.card * (4 * (tree.addrs.length + busy.card) + 10)) := by
  obtain ⟨tree, invariant⟩ := interleaving_invariant reachable
  let busy := (interleaving_finite reachable).toFinset
  have isBusy : ∀ t, t ∈ busy ↔ s.threads t ≠ none := fun t => Set.Finite.mem_toFinset _
  refine ⟨tree, busy, invariant.positions.shape, isBusy, ?_⟩
  intro schedule s' found
  have lowers : ∀ s s' action n, (∃ t, action = Action.advance t) →
      (∃ tree, Invariant s tree ∧ (∀ t, s.threads t ≠ none → t ∈ busy) ∧ ∑ t ∈ busy, s.work tree (s.additions busy) t = n) →
      Clear s action → s.act action = .ok (some s') →
      ∃ m < n, ∃ tree, Invariant s' tree ∧ (∀ t, s'.threads t ≠ none → t ∈ busy) ∧
        ∑ t ∈ busy, s'.work tree (s'.additions busy) t = m := by
    rintro s s' _ n ⟨t, rfl⟩ ⟨tree, invariant, inside, rfl⟩ clear run
    obtain ⟨act, tree', running, progress, after⟩ := invariant.advance clear run
    have member : t ∈ busy := inside t (by rw [running]; exact Option.some_ne_none _)
    refine ⟨_, progress.work_lt invariant running member, tree', after, ?_, rfl⟩
    intro u isRunning
    by_cases here : u = t
    · rw [here]
      exact member
    · rw [progress.effect.elsewhere here] at isRunning
      exact inside u isRunning
  obtain ⟨m, ⟨tree', after, _, _⟩, length⟩ := Transition.follow_bound lowers
    (by simp) ⟨tree, invariant, fun t => (isBusy t).mpr, rfl⟩ found
  refine ⟨by have bound := invariant.work_le busy; rw [List.length_map] at length; omega, ?_⟩
  by_cases idle : ∀ t, s'.threads t = none
  · exact Or.inl idle
  · right
    obtain ⟨t, running⟩ := not_forall.mp idle
    obtain ⟨act, running⟩ := Option.ne_none_iff_exists'.mp running
    exact after.able running

/-- Thread 0 is at the value of `t`, which thread 1 has come to remove. -/
def waiting : List Action := threeKeys ++ .invoke 1 (.remove (text "t")) :: List.replicate 6 (.advance 1)

theorem completes_waiting : ∃ (s : System) (tree : KeyTree) (busy : Finset Nat),
    Transition.follow System.act Clear waiting System.initial = some s ∧ Shape s.store tree ∧
      (∀ t, t ∈ busy ↔ s.threads t ≠ none) ∧ Completes s (busy.card * (4 * (tree.addrs.length + busy.card) + 10)) := by
  obtain ⟨s, found⟩ := Option.isSome_iff_exists.mp
    (show (Transition.follow System.act Clear waiting System.initial).isSome = true by decide +kernel)
  obtain ⟨tree, busy, shape, isBusy, completes⟩ := interleaving_completes (Transition.follow_reachable .initial found)
  exact ⟨s, tree, busy, found, shape, isBusy, completes⟩

end Cs1330.Db
