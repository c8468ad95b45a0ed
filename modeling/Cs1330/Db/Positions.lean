import Cs1330.Db.TreeCalls
import Cs1330.Db.Exclusion

/-!
# Threads in the tree

Where the threads stand in the tree that the store holds. A searching thread has a lock on a node
of the path of its key, and a step of one thread keeps, of every node that another has locked, the
contents and the paths that lead to it. That is what hand-over-hand locking is for.
-/

namespace Cs1330.Db
open SearchTree SearchTree.Tree

def Pc.victim : Pc → Option NodeId
  | finish _ victim _ => victim
  | _ => none

/-- A search for `key` goes on below `p`. -/
def OnWay (nodes : NodeId → Option Node) (tree : KeyTree) (key : CString) (p : NodeId) : Prop :=
  p = head ∨ p ∈ tree.path key ∧ ∃ v, nodes p = some v ∧ v.key ≠ key

def Placed (nodes : NodeId → Option Node) (tree : KeyTree) (key : CString) : Pc → Prop
  | .start => True
  | .visit p => OnWay nodes tree key p
  | .wait p next => OnWay nodes tree key p ∧ ∃ v, nodes p = some v ∧ childOf key v = some next
  | .compare p next => OnWay nodes tree key p ∧ ∃ v, nodes p = some v ∧ childOf key v = some next
  | .descend p next => p ∈ head :: tree.addrs ∧ next ∈ tree.path key ∧ ∃ v, nodes next = some v ∧ v.key ≠ key
  | .hit p target => p ∈ head :: tree.addrs ∧ target ∈ tree.addrs ∧ ∃ v, nodes target = some v ∧ v.key = key
  | .reading target => target ∈ tree.addrs ∧ ∃ v, nodes target = some v ∧ v.key = key
  | .finish unlocks victim _ => ∀ n ∈ unlocks, n ∈ head :: tree.addrs ∨ victim = some n

/-- What a step has to leave to the other threads of a node that they have locked. -/
structure Kept (s s' : Store) (tree tree' : KeyTree) (n : NodeId) : Prop where
  same : s'.nodes n = s.nodes n
  stays : n ∈ tree.addrs → n ∈ tree'.addrs
  onPath : ∀ key, n ∈ tree.path key → n ∈ tree'.path key

section
variable {s s' : Store} {tree tree' : KeyTree} {key : CString} {p n : NodeId} {pc : Pc}

theorem Kept.member (kept : Kept s s' tree tree' n) (member : n ∈ head :: tree.addrs) : n ∈ head :: tree'.addrs := by
  rcases List.mem_cons.mp member with rfl | inTree
  · exact List.mem_cons_self
  · exact List.mem_cons_of_mem _ (kept.stays inTree)

theorem OnWay.frame (onWay : OnWay s.nodes tree key p) (kept : Kept s s' tree tree' p) : OnWay s'.nodes tree' key p := by
  rcases onWay with isHead | ⟨onPath, content⟩
  · exact Or.inl isHead
  · rw [← kept.same] at content
    exact Or.inr ⟨kept.onPath key onPath, content⟩

theorem Placed.frame (placed : Placed s.nodes tree key pc) (kept : ∀ n ∈ pc.held, Kept s s' tree tree' n) :
    Placed s'.nodes tree' key pc := by
  cases pc with
  | start => trivial
  | visit p => exact OnWay.frame placed (kept p (by simp [Pc.held]))
  | wait p next =>
    obtain ⟨onWay, content⟩ := placed
    have keptP := kept p (by simp [Pc.held])
    rw [← keptP.same] at content
    exact ⟨onWay.frame keptP, content⟩
  | compare p next =>
    obtain ⟨onWay, content⟩ := placed
    have keptP := kept p (by simp [Pc.held])
    rw [← keptP.same] at content
    exact ⟨onWay.frame keptP, content⟩
  | descend p next =>
    obtain ⟨member, onPath, content⟩ := placed
    have keptNext := kept next (by simp [Pc.held])
    rw [← keptNext.same] at content
    exact ⟨(kept p (by simp [Pc.held])).member member, keptNext.onPath key onPath, content⟩
  | hit p target =>
    obtain ⟨member, inTree, content⟩ := placed
    have keptTarget := kept target (by simp [Pc.held])
    rw [← keptTarget.same] at content
    exact ⟨(kept p (by simp [Pc.held])).member member, keptTarget.stays inTree, content⟩
  | reading target =>
    obtain ⟨inTree, content⟩ := placed
    have keptTarget := kept target (by simp [Pc.held])
    rw [← keptTarget.same] at content
    exact ⟨keptTarget.stays inTree, content⟩
  | finish unlocks victim result =>
    intro n member
    rcases placed n member with inTree | isVictim
    · exact Or.inl ((kept n member).member inTree)
    · exact Or.inr isVictim

/-- A thread on its way stands at the owner of a hole that its search comes to. -/
theorem OnWay.hole (onWay : OnWay s.nodes tree key p) (shape : Shape s tree) :
    ∃ (c : KeyCtx) (below : KeyTree), tree = c.plug below ∧ c.Follows key ∧ c.owner head = p := by
  rcases onWay with rfl | ⟨onPath, v, found, different⟩
  · exact ⟨.top, tree, rfl, trivial, rfl⟩
  · obtain ⟨c, l, k, value, r, whole, follows⟩ := path_ctx (c := .top) trivial onPath
    have whole : tree = c.plug (.node p l k value r) := whole
    subst whole
    have root := (stored_plug.mp shape.stored).2.1
    have content : v = ⟨k, value, l.ptr, r.ptr⟩ := Option.some.inj (found.symm.trans root)
    have other : k ≠ key := by rwa [content] at different
    rcases lt_or_gt_of_ne other with more | less
    · exact ⟨c.right p l k value, r, rfl, ⟨more, follows⟩, rfl⟩
    · exact ⟨c.left p k value r, l, rfl, ⟨less, follows⟩, rfl⟩

/-- The node that a thread waits for is the root of what fills the hole. -/
theorem OnWay.child {next : NodeId} {v : Node} (onWay : OnWay s.nodes tree key p) (shape : Shape s tree)
    (found : s.nodes p = some v) (child : childOf key v = some next) :
    ∃ (c : KeyCtx) (l : KeyTree) (k value : CString) (r : KeyTree), tree = c.plug (.node next l k value r) ∧
      c.Follows key ∧ c.owner head = p := by
  obtain ⟨c, below, rfl, follows, rfl⟩ := onWay.hole shape
  obtain ⟨w, owner, isChild⟩ := shape.owner follows
  obtain rfl := Option.some.inj (owner.symm.trans found)
  rw [child] at isChild
  cases below with
  | nil => cases isChild
  | node a l k value r =>
    obtain rfl := Option.some.inj isChild
    exact ⟨c, l, k, value, r, rfl, follows, rfl⟩

theorem root_member (c : KeyCtx) (a : NodeId) (l : KeyTree) (k value : CString) (r : KeyTree) :
    a ∈ (c.plug (.node a l k value r)).addrs := Ctx.mem_addrs_plug.mpr (Or.inr List.mem_cons_self)

theorem OnWay.member (onWay : OnWay s.nodes tree key p) (shape : Shape s tree) : p ∈ head :: tree.addrs := by
  obtain ⟨c, below, rfl, _, rfl⟩ := onWay.hole shape
  exact owner_member c below

/-- Threads have locks on nodes of the tree and on the node that they took out of it. -/
theorem Placed.member (placed : Placed s.nodes tree key pc) (shape : Shape s tree) (held : n ∈ pc.held) :
    n ∈ head :: tree.addrs ∨ pc.victim = some n := by
  cases pc with
  | start => cases held
  | visit p =>
    obtain rfl : n = p := by simpa [Pc.held] using held
    exact Or.inl (OnWay.member placed shape)
  | wait p next =>
    obtain rfl : n = p := by simpa [Pc.held] using held
    exact Or.inl (placed.1.member shape)
  | compare p next =>
    obtain ⟨onWay, v, found, child⟩ := placed
    have either : n = p ∨ n = next := by simpa [Pc.held] using held
    rcases either with rfl | rfl
    · exact Or.inl (onWay.member shape)
    · obtain ⟨c, l, k, value, r, rfl, _⟩ := onWay.child shape found child
      exact Or.inl (List.mem_cons_of_mem _ (root_member c n l k value r))
  | descend p next =>
    obtain ⟨member, onPath, _⟩ := placed
    have either : n = p ∨ n = next := by simpa [Pc.held] using held
    rcases either with rfl | rfl
    · exact Or.inl member
    · exact Or.inl (List.mem_cons_of_mem _ (path_subset _ _ onPath))
  | hit p target =>
    obtain ⟨member, inTree, _⟩ := placed
    have either : n = p ∨ n = target := by simpa [Pc.held] using held
    rcases either with rfl | rfl
    · exact Or.inl member
    · exact Or.inl (List.mem_cons_of_mem _ inTree)
  | reading target =>
    obtain rfl : n = target := by simpa [Pc.held] using held
    exact Or.inl (List.mem_cons_of_mem _ placed.1)
  | finish unlocks victim result => exact placed n held

theorem Shape.present (shape : Shape s tree) (member : n ∈ head :: tree.addrs) : ∃ v, s.nodes n = some v := by
  rcases List.mem_cons.mp member with rfl | inTree
  · exact ⟨_, shape.root⟩
  · exact shape.stored.mem inTree

end

/-! ### All threads together -/

/-- The node that thread `t` is going to destroy. -/
structure Detached (s : System) (tree : KeyTree) (t : Nat) (v : NodeId) : Prop where
  out : v ∉ head :: tree.addrs
  present : ∃ content, s.store.nodes v = some content
  bound : v < s.store.fresh
  free : ∀ u other, u ≠ t → s.threads u = some other → v ∉ other.pc.held ∧ other.pc.victim ≠ some v

structure Positions (s : System) (tree : KeyTree) : Prop where
  shape : Shape s.store tree
  succeeds : s.store.mallocs = []
  short : ∀ t act, s.threads t = some act → act.call.Short
  placed : ∀ t act, s.threads t = some act → Placed s.store.nodes tree act.call.key act.pc
  detached : ∀ t act v, s.threads t = some act → act.pc.victim = some v → Detached s tree t v

variable {s s' : System} {tree tree' : KeyTree} {t : Nat} {act : Activity} {n : NodeId} {pc : Pc}

theorem positions_initial : Positions System.initial .nil := by
  constructor
  · refine ⟨rfl, trivial, by simp [addrs], ?_, trivial, by simp [entries]⟩
    intro a member
    obtain rfl : a = head := by simpa [addrs] using member
    exact Nat.zero_lt_one
  · rfl
  · intro t act found
    cases found
  · intro t act found
    cases found
  · intro t act v found
    cases found

/-- No thread has a lock on a destroyed node, and every locked node is older than the next one. -/
theorem Positions.held (positions : Positions s tree) (running : s.threads t = some act) (held : n ∈ act.pc.held) :
    (∃ v, s.store.nodes n = some v) ∧ n < s.store.fresh := by
  rcases (positions.placed t act running).member positions.shape held with member | isVictim
  · exact ⟨positions.shape.present member, positions.shape.bound n member⟩
  · have detached := positions.detached t act n running isVictim
    exact ⟨detached.present, detached.bound⟩

theorem Positions.step (positions : Positions s tree) (others : ∀ u, u ≠ t → s'.threads u = s.threads u)
    (shape : Shape s'.store tree') (succeeds : s'.store.mallocs = []) (grows : s.store.fresh ≤ s'.store.fresh)
    (kept : ∀ u other n, u ≠ t → s.threads u = some other → n ∈ other.pc.held → Kept s.store s'.store tree tree' n)
    (aside : ∀ u other v, u ≠ t → s.threads u = some other → other.pc.victim = some v →
      s'.store.nodes v = s.store.nodes v ∧ v ∉ head :: tree'.addrs)
    (own : ∀ act, s'.threads t = some act → act.call.Short ∧ Placed s'.store.nodes tree' act.call.key act.pc ∧
      ∀ v, act.pc.victim = some v → Detached s' tree' t v) : Positions s' tree' := by
  refine ⟨shape, succeeds, ?_, ?_, ?_⟩
  · intro u other found
    by_cases here : u = t
    · subst here
      exact (own other found).1
    · rw [others u here] at found
      exact positions.short u other found
  · intro u other found
    by_cases here : u = t
    · subst here
      exact (own other found).2.1
    · rw [others u here] at found
      exact (positions.placed u other found).frame fun n held => kept u other n here found held
  · intro u other v found isVictim
    by_cases here : u = t
    · subst here
      exact (own other found).2.2 v isVictim
    · rw [others u here] at found
      have old := positions.detached u other v found isVictim
      obtain ⟨same, out⟩ := aside u other v here found isVictim
      refine ⟨out, ?_, Nat.lt_of_lt_of_le old.bound grows, ?_⟩
      · rw [same]
        exact old.present
      · intro w third different wFound
        by_cases wHere : w = t
        · subst wHere
          obtain ⟨_, placed, ownVictim⟩ := own third wFound
          -- The victims of two threads differ, since `t` leaves those of the others alone.
          have apart : third.pc.victim ≠ some v := by
            intro isOwn
            have mine := (ownVictim v isOwn).free u other here (by rw [others u here]; exact found)
            exact mine.2 isVictim
          refine ⟨fun held => ?_, apart⟩
          rcases placed.member shape held with member | isOwn
          · exact out member
          · exact apart isOwn
        · rw [others w wHere] at wFound
          exact old.free w third different wFound

theorem Detached.transfer {v : NodeId} (detached : Detached s tree t v) (others : ∀ u, u ≠ t → s'.threads u = s.threads u)
    (same : s'.store.nodes = s.store.nodes) (sameFresh : s'.store.fresh = s.store.fresh) : Detached s' tree t v := by
  refine ⟨detached.out, ?_, ?_, ?_⟩
  · rw [same]
    exact detached.present
  · rw [sameFresh]
    exact detached.bound
  · intro u other different found
    rw [others u different] at found
    exact detached.free u other different found

theorem Positions.quiet {ops : List Op} (positions : Positions s tree)
    (others : ∀ u, u ≠ t → s'.threads u = s.threads u) (store : s'.store = s.store.withOps ops)
    (own : ∀ act, s'.threads t = some act → act.call.Short ∧ Placed s.store.nodes tree act.call.key act.pc ∧
      ∀ v, act.pc.victim = some v → Detached s tree t v) : Positions s' tree := by
  apply positions.step others
  · rw [store]
    exact positions.shape.withOps ops
  · rw [store]
    exact positions.succeeds
  · rw [store]
    exact Nat.le_refl _
  · intro u other n _ _ _
    rw [store]
    exact ⟨rfl, id, fun _ => id⟩
  · intro u other v _ found isVictim
    rw [store]
    exact ⟨rfl, (positions.detached u other v found isVictim).out⟩
  · intro act running
    obtain ⟨short, placed, detached⟩ := own act running
    rw [store]
    refine ⟨short, placed, fun v isVictim => (detached v isVictim).transfer others ?_ ?_⟩
    · rw [store]
      rfl
    · rw [store]
      rfl

end Cs1330.Db
