import Cs1330.Db.Linearize

/-!
# Nothing is leaked

What is allocated is in the tree, or a `db_remove` that has taken it out is going to destroy it. So
once all calls have returned, `db_cleanup` destroys every node but `head`, and none twice.
-/

namespace Cs1330.Db
open SearchTree SearchTree.Tree

/-! ### `db_cleanup` -/

def Store.without (s : Store) (ns : List NodeId) : Store := { s with nodes := fun n => if n ∈ ns then none else s.nodes n }

/-- The nodes that are destroyed, in order. -/
def destroyed (trace : List Op) : List NodeId :=
  trace.filterMap fun
    | .destroy n => some n
    | _ => none

/-- What is recorded while a tree is destroyed. -/
def cleanupOps : KeyTree → List Op
  | .nil => []
  | .node a l _ _ r => .read a :: (cleanupOps l ++ .read a :: (cleanupOps r ++ [.destroy a]))

section
variable {s : Store} {t : KeyTree} {n : NodeId}

@[simp] theorem without_nil (s : Store) : s.without [] = s := by
  simp [Store.without]

theorem without_of_notMem {ns : List NodeId} (absent : n ∉ ns) : (s.without ns).nodes n = s.nodes n := if_neg absent

theorem without_append (ms ns : List NodeId) : (s.without ms).without ns = s.without (ms ++ ns) := by
  simp only [Store.without, Store.mk.injEq, and_true]
  funext n
  by_cases first : n ∈ ms
  · simp [first]
  · simp [first]

theorem without_put (ns : List NodeId) : (s.without ns).put n none = s.without (n :: ns) := by
  simp only [Store.without, Store.put, Store.mk.injEq, and_true]
  funext m
  by_cases same : m = n
  · subst same
    simp
  · simp [same]

/-- The nodes under `t` go in postorder, so no child pointer of a destroyed node is read. -/
theorem traces_dbCleanupRecurs (t : KeyTree) : ∀ (s : Store) (rounds : Nat), Stored s.nodes t → t.addrs.Nodup →
    t.addrs.length < rounds → Traces (dbCleanupRecurs rounds t.ptr) s () (s.without t.addrs) (cleanupOps t) := by
  induction t with
  | nil =>
    intro s rounds _ _ bound
    obtain ⟨rounds, rfl⟩ : ∃ k, rounds = k + 1 := ⟨rounds - 1, by omega⟩
    rw [addrs, without_nil]
    exact Traces.pure _ _
  | node a l k v r ihl ihr =>
    intro s rounds stored distinct bound
    simp only [addrs, List.length_cons, List.length_append] at bound
    obtain ⟨rounds, rfl⟩ : ∃ k, rounds = k + 1 := ⟨rounds - 1, by omega⟩
    obtain ⟨root, left, right⟩ := stored
    obtain ⟨notIn, distinct⟩ := List.nodup_cons.mp distinct
    obtain ⟨distinctLeft, distinctRight, apart⟩ := List.nodup_append'.mp distinct
    simp only [List.mem_append, not_or] at notIn
    have root' : (s.without l.addrs).nodes a = some ⟨k, v, l.ptr, r.ptr⟩ := (without_of_notMem notIn.1).trans root
    have right' : Stored (s.without l.addrs).nodes r :=
      right.congr fun n member => without_of_notMem fun inLeft => apart inLeft member
    have root'' : (s.without (l.addrs ++ r.addrs)).nodes a = some ⟨k, v, l.ptr, r.ptr⟩ :=
      (without_of_notMem (by simp [notIn])).trans root
    rw [ptr, dbCleanupRecurs]
    apply (traces_node root).cons
    apply (ihl s rounds left distinctLeft (by omega)).bind
    apply (traces_node root').cons
    apply (ihr (s.without l.addrs) rounds right' distinctRight (by omega)).bind
    rw [without_append, addrs, ← without_put]
    exact traces_nodeDestructor root''

theorem Shape.traces_dbCleanup (shape : Shape s t) :
    Traces dbCleanup s () (s.without t.addrs) (.read head :: .read head :: cleanupOps t) := by
  have length := shape.length_lt_fresh
  have distinct := (List.nodup_cons.mp shape.distinct).2
  have left : Traces (dbCleanupRecurs s.fresh none) s () (s.without []) [] :=
    traces_dbCleanupRecurs .nil s s.fresh trivial List.nodup_nil (Nat.lt_of_le_of_lt (Nat.zero_le _) length)
  rw [without_nil] at left
  have whole : Traces (do
      dbCleanupRecurs s.fresh (← node head).lchild
      dbCleanupRecurs s.fresh (← node head).rchild) s () (s.without t.addrs) (.read head :: .read head :: cleanupOps t) := by
    apply (traces_node shape.root).cons
    apply left.silent
    apply (traces_node shape.root).cons
    exact traces_dbCleanupRecurs t s s.fresh shape.stored distinct length
  unfold dbCleanup
  exact Traces.get whole

theorem destroyed_append (first second : List Op) : destroyed (first ++ second) = destroyed first ++ destroyed second :=
  List.filterMap_append

theorem destroyed_cleanupOps (t : KeyTree) : (destroyed (cleanupOps t)).Perm t.addrs := by
  induction t with
  | nil => exact List.Perm.refl _
  | node a l k v r ihl ihr =>
    have parts : destroyed (cleanupOps (.node a l k v r)) =
        destroyed (cleanupOps l) ++ (destroyed (cleanupOps r) ++ [a]) := by
      rw [cleanupOps]
      change destroyed (cleanupOps l ++ .read a :: (cleanupOps r ++ [.destroy a])) = _
      rw [destroyed_append]
      change _ ++ destroyed (cleanupOps r ++ [.destroy a]) = _
      rw [destroyed_append]
      rfl
    rw [parts, ← List.append_assoc]
    exact List.perm_append_singleton a _ |>.trans ((ihl.append ihr).cons a)

end

/-! ### What is allocated -/

variable {s s' : System} {tree tree' : KeyTree} {t : Nat} {act : Activity}

/-- Every allocated node is in the tree, or is going to be destroyed by a thread. -/
def Accounted (s : System) (tree : KeyTree) : Prop := ∀ n, s.store.nodes n ≠ none →
  n ∈ head :: tree.addrs ∨ ∃ u act, s.threads u = some act ∧ act.pc.victim = some n

theorem accounted_initial : Accounted System.initial .nil := by
  intro n present
  by_cases isHead : n = head
  · exact Or.inl (isHead ▸ List.mem_cons_self)
  · exact (present (if_neg isHead)).elim

theorem Accounted.progress (accounted : Accounted s tree) (running : s.threads t = some act)
    (progress : Progress s s' tree tree' t act) : Accounted s' tree' := by
  intro n present
  rcases progress.allocated n present with member | ⟨act', after, isVictim⟩ | ⟨before, outside, notOwn⟩
  · exact Or.inl member
  · exact Or.inr ⟨t, act', after, isVictim⟩
  · obtain ⟨u, other, found, isVictim⟩ := (accounted n before).resolve_left outside
    have here : u ≠ t := by
      rintro rfl
      obtain rfl := Option.some.inj (running.symm.trans found)
      exact notOwn isVictim
    exact Or.inr ⟨u, other, (progress.effect.elsewhere here).trans found, isVictim⟩

theorem Accounted.invoke (accounted : Accounted s tree) (idle : s.threads t = none) (call : Call) :
    Accounted (s.invoke t call) tree := by
  intro n present
  refine (accounted n present).imp_right ?_
  rintro ⟨u, other, found, isVictim⟩
  have here : u ≠ t := by
    rintro rfl
    rw [idle] at found
    cases found
  exact ⟨u, other, (Function.update_of_ne here _ _).trans found, isVictim⟩

theorem interleaving_accounted (reachable : Interleaving Clear s) : ∃ tree, Invariant s tree ∧ Accounted s tree := by
  refine Transition.Reachable.invariant (P := fun s => ∃ tree, Invariant s tree ∧ Accounted s tree) reachable
    ⟨.nil, invariant_initial, accounted_initial⟩ ?_
  rintro s s' action ⟨tree, invariant, accounted⟩ clear run
  cases action with
  | invoke t call =>
    obtain ⟨idle, short, rfl⟩ := System.act_invoke run
    exact ⟨tree, invariant.invoke idle short, accounted.invoke idle call⟩
  | advance t =>
    obtain ⟨act, tree', running, progress, after⟩ := invariant.advance clear run
    exact ⟨tree', after, accounted.progress running progress⟩

/-- When no call is open, `db_cleanup` destroys every allocated node but `head` once, and faults at
none. -/
theorem interleaving_cleanup (reachable : Interleaving Clear s) (idle : ∀ t, s.threads t = none) :
    ∃ store trace, Traces dbCleanup s.store () store trace ∧ (destroyed trace).Nodup ∧
      (∀ n, n ∈ destroyed trace ↔ n ≠ head ∧ s.store.nodes n ≠ none) ∧ ∀ n, store.nodes n ≠ none ↔ n = head := by
  obtain ⟨tree, invariant, accounted⟩ := interleaving_accounted reachable
  have shape := invariant.positions.shape
  have allocated : ∀ n, s.store.nodes n ≠ none ↔ n ∈ head :: tree.addrs := by
    intro n
    constructor
    · intro present
      refine (accounted n present).resolve_right ?_
      rintro ⟨u, act, running, _⟩
      rw [idle u] at running
      cases running
    · intro member
      obtain ⟨v, found⟩ := shape.present member
      rw [found]
      exact Option.some_ne_none v
  have inTree : ∀ n, n ∈ tree.addrs ↔ n ≠ head ∧ s.store.nodes n ≠ none := by
    intro n
    rw [allocated]
    constructor
    · intro member
      exact ⟨fun isHead => shape.head_notMem (isHead ▸ member), List.mem_cons_of_mem _ member⟩
    · rintro ⟨notHead, member⟩
      exact (List.mem_cons.mp member).resolve_left notHead
  refine ⟨_, _, shape.traces_dbCleanup, ?_, ?_, ?_⟩
  · change (destroyed (cleanupOps tree)).Nodup
    exact (destroyed_cleanupOps tree).nodup_iff.mpr (List.nodup_cons.mp shape.distinct).2
  · intro n
    change n ∈ destroyed (cleanupOps tree) ↔ _
    rw [(destroyed_cleanupOps tree).mem_iff, inTree]
  · intro n
    by_cases member : n ∈ tree.addrs
    · have notHead : n ≠ head := ((inTree n).mp member).1
      simp [Store.without, member, notHead]
    · rw [without_of_notMem member, allocated, List.mem_cons]
      exact or_iff_left member

/-- A thread that a schedule does not mention stays idle. -/
theorem follow_idle {k : Nat} {actions : List Action} : ∀ {s s' : System}, (∀ action ∈ actions, action.thread < k) →
    (∀ t, k ≤ t → s.threads t = none) → Transition.follow System.act Clear actions s = some s' → ∀ t, k ≤ t → s'.threads t = none := by
  induction actions with
  | nil =>
    intro s s' _ idle found
    obtain rfl := Option.some.inj found
    exact idle
  | cons action rest ih =>
    intro s s' inside idle found
    obtain ⟨next, _, run, found⟩ := Transition.follow_cons.mp found
    refine ih (fun a member => inside a (List.mem_cons_of_mem _ member)) ?_ found
    intro t outside
    have here : t ≠ action.thread := (Nat.lt_of_lt_of_le (inside action List.mem_cons_self) outside).ne'
    rw [System.act_others run here]
    exact idle t outside

/-- Both calls return, and `c` has been destroyed. -/
def settled : List Action := overlapping ++ List.replicate 3 (.advance 1)

theorem cleanup_settled : ∃ s store trace, Transition.follow System.act Clear settled System.initial = some s ∧
    Traces dbCleanup s.store () store trace ∧ (destroyed trace).Nodup ∧
      (∀ n, n ∈ destroyed trace ↔ n ≠ head ∧ s.store.nodes n ≠ none) ∧ ∀ n, store.nodes n ≠ none ↔ n = head := by
  have both : ((Transition.follow System.act Clear settled System.initial).map fun s =>
      (s.threads 0).isNone && (s.threads 1).isNone) = some true := by decide +kernel
  obtain ⟨s, found, both⟩ := Option.map_eq_some_iff.mp both
  simp only [Bool.and_eq_true, Option.isNone_iff_eq_none] at both
  have idle : ∀ t, s.threads t = none := by
    intro t
    by_cases outside : 2 ≤ t
    · exact follow_idle (by decide) (fun _ _ => rfl) found t outside
    · obtain rfl | rfl : t = 0 ∨ t = 1 := by omega
      · exact both.1
      · exact both.2
  obtain ⟨store, trace, run, once⟩ := interleaving_cleanup (Transition.follow_reachable .initial found) idle
  exact ⟨s, store, trace, found, run, once⟩

end Cs1330.Db
