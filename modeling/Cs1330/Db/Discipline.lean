import Cs1330.Lib.Trace
import Cs1330.Db.Print
import Cs1330.Db.Threads

/-!
# Lock discipline

What the record of one call says about its locks. `search` goes down the tree hand over hand and
leaves the parent to its caller or not; each caller has to release what it was left with. The
accesses are all under a lock, except in the walk of `db_remove` to the successor.
-/

namespace Cs1330.Db
open SearchTree SearchTree.Tree Trace

/-! ### Reading the record -/

/-- What a call holds and has done so far. -/
structure Holding where
  held : List (NodeId × Mode)
  locked : List NodeId
  /-- A node was written or destroyed. -/
  changed : Bool

def Holding.start : Holding := ⟨[], [], false⟩

def Holding.observe (h : Holding) : Op → Holding
  | .lock mode n => { h with held := (n, mode) :: h.held, locked := n :: h.locked }
  | .unlock n => { h with held := h.held.eraseP fun lock => lock.1 == n }
  | .read _ => h
  | .write _ => { h with changed := true }
  | .destroy _ => { h with changed := true }

def Holding.Has (h : Holding) (n : NodeId) : Prop := ∃ mode, (n, mode) ∈ h.held

def IsChild (nodes : NodeId → Option Node) (p n : NodeId) : Prop :=
  ∃ v, nodes p = some v ∧ (v.lchild = some n ∨ v.rchild = some n)

/-- The lock of `head` first, then one at a time that of a child of a node that is locked still. A
call takes no lock after it has changed the tree, so `nodes` are the nodes as it found them. -/
def Coupled (nodes : NodeId → Option Node) (h : Holding) : Op → Prop
  | .lock _ n => h.changed = false ∧ h.held.length < 2 ∧
      if h.locked = [] then n = head else ∃ p, h.Has p ∧ IsChild nodes p n
  | .unlock n => h.Has n
  | _ => True

/-- Accesses under a lock; a node that the call has locked before may be destroyed once unlinked. -/
def Guarded (unlinked : NodeId → Prop) (h : Holding) : Op → Prop
  | .read n => h.Has n
  | .write n => (n, .write) ∈ h.held
  | .destroy n => h.Has n ∨ n ∈ h.locked ∧ unlinked n
  | _ => True

def Orderly (nodes : NodeId → Option Node) (unlinked : NodeId → Prop) (h : Holding) (op : Op) : Prop :=
  Coupled nodes h op ∧ Guarded unlinked h op

variable {s s' : Store} {c c' : KeyCtx} {t t' : KeyTree} {key value : CString} {parentpp : Bool} {mode m : Mode}
  {way trace : List Op} {locked : List NodeId} {a p : NodeId} {unlinked : NodeId → Prop} {h : Holding}

theorem Shape.isChild (shape : Shape s (c.plug t)) (follows : c.Follows key) (isRoot : t.ptr = some a) :
    IsChild s.nodes (c.owner head) a := by
  obtain ⟨v, found, child⟩ := shape.owner follows
  refine ⟨v, found, ?_⟩
  rw [← isRoot, ← child, childOf]
  split
  · exact Or.inl rfl
  · exact Or.inr rfl

/-! ### Search -/

/-- What `search` leaves locked, given the lock of the parent and the tree where it stopped. -/
def stopHeld (parentpp : Bool) (mode : Mode) (parent : NodeId × Mode) : KeyTree → List (NodeId × Mode)
  | .nil => if parentpp then [parent] else []
  | .node a _ _ _ _ => (a, mode) :: if parentpp then [parent] else []

theorem observe_unlock_parent {changed : Bool} (different : a ≠ p) :
    Holding.observe ⟨[(a, mode), (p, m)], locked, changed⟩ (.unlock p) = ⟨[(a, mode)], locked, changed⟩ := by
  simp [Holding.observe, different]

/-- The first steps of a round: two reads of the parent, then the lock and the key of its child. -/
theorem orderly_round {rest : List Op} (nonempty : locked ≠ []) (child : IsChild s.nodes p a)
    (later : Along Holding.observe (Orderly s.nodes unlinked) ⟨[(a, mode), (p, m)], a :: locked, false⟩ rest) :
    Along Holding.observe (Orderly s.nodes unlinked) ⟨[(p, m)], locked, false⟩
      (.read p :: .read p :: .lock mode a :: .read a :: rest) := by
  have holds : Holding.Has ⟨[(p, m)], locked, false⟩ p := ⟨m, List.mem_cons_self⟩
  have coupled : Coupled s.nodes ⟨[(p, m)], locked, false⟩ (.lock mode a) := by
    refine ⟨rfl, Nat.lt_succ_self 1, ?_⟩
    rw [if_neg nonempty]
    exact ⟨p, holds, child⟩
  exact ⟨⟨trivial, holds⟩, ⟨trivial, holds⟩, ⟨coupled, trivial⟩, ⟨trivial, mode, List.mem_cons_self⟩, later⟩

theorem orderly_descend {rest : List Op} (nonempty : locked ≠ []) (child : IsChild s.nodes p a) (different : a ≠ p)
    (later : Along Holding.observe (Orderly s.nodes unlinked) ⟨[(a, mode)], a :: locked, false⟩ rest) :
    Along Holding.observe (Orderly s.nodes unlinked) ⟨[(p, m)], locked, false⟩
      (.read p :: .read p :: .lock mode a :: .read a :: .unlock p :: rest) := by
  apply orderly_round nonempty child
  refine ⟨⟨⟨m, List.mem_cons_of_mem _ List.mem_cons_self⟩, trivial⟩, ?_⟩
  rw [observe_unlock_parent different]
  exact later

theorem observe_descend (rest : List Op) (different : a ≠ p) :
    (.read p :: .read p :: .lock mode a :: .read a :: .unlock p :: rest).foldl Holding.observe ⟨[(p, m)], locked, false⟩ =
      rest.foldl Holding.observe ⟨[(a, mode)], a :: locked, false⟩ :=
  congrArg (rest.foldl Holding.observe) (observe_unlock_parent different)

theorem orderly_leave {rest : List (NodeId × Mode)} (parentpp : Bool) (holds : (p, m) ∈ rest) :
    Along Holding.observe (Orderly s.nodes unlinked) ⟨rest, locked, false⟩ (leave parentpp p) := by
  cases parentpp with
  | false => exact ⟨⟨⟨m, holds⟩, trivial⟩, trivial⟩
  | true => trivial

/-- What a search ends with: the locks of `stopHeld`, on nodes that were locked on the way. -/
structure Stopped (parentpp : Bool) (mode m : Mode) (parent : NodeId) (t : KeyTree) (h : Holding) : Prop where
  held : ∃ m', (m' = m ∨ m' = mode) ∧ h.held = stopHeld parentpp mode (parent, m') t
  parent : parent ∈ h.locked
  target : ∀ a ∈ t.ptr, a ∈ h.locked
  unchanged : h.changed = false

theorem Stopped.step (stopped : Stopped parentpp mode mode p t h) (m : Mode) : Stopped parentpp mode m p t h := by
  obtain ⟨m', isMode, held⟩ := stopped.held
  exact ⟨⟨m', Or.inr (by tauto), held⟩, stopped.parent, stopped.target, stopped.unchanged⟩

theorem Descent.orderly (descent : Descent key parentpp mode c t c' t' way) (unlinked : NodeId → Prop)
    (shape : Shape s (c.plug t)) (follows : c.Follows key) : ∀ (m : Mode) (locked : List NodeId), c.owner head ∈ locked →
      Along Holding.observe (Orderly s.nodes unlinked) ⟨[(c.owner head, m)], locked, false⟩ way ∧
        Stopped parentpp mode m (c'.owner head) t' (way.foldl Holding.observe ⟨[(c.owner head, m)], locked, false⟩) := by
  have apart : ∀ {c : KeyCtx} {a l k v r}, Shape s (c.plug (.node a l k v r)) → a ≠ c.owner head := by
    intro c a l k v r shape equal
    exact shape.owner_notIn (equal ▸ List.mem_cons_self)
  induction descent with
  | missing c =>
    intro m locked parent
    have holds : Holding.Has ⟨[(c.owner head, m)], locked, false⟩ (c.owner head) := ⟨m, List.mem_cons_self⟩
    refine ⟨⟨⟨trivial, holds⟩, ⟨trivial, holds⟩, orderly_leave parentpp List.mem_cons_self⟩, ?_⟩
    cases parentpp with
    | false => exact ⟨⟨m, Or.inl rfl, by simp [leave, Holding.observe, stopHeld]⟩, parent, by simp [ptr], rfl⟩
    | true => exact ⟨⟨m, Or.inl rfl, rfl⟩, parent, by simp [ptr], rfl⟩
  | found c a l v r =>
    intro m locked parent
    have inside : c.owner head ∈ a :: locked := List.mem_cons_of_mem _ parent
    have target : ∀ b ∈ ptr (.node a l key v r : KeyTree), b ∈ a :: locked := by simp [ptr]
    refine ⟨orderly_round (List.ne_nil_of_mem parent) (shape.isChild follows rfl)
      (orderly_leave parentpp (List.mem_cons_of_mem _ List.mem_cons_self)), ?_⟩
    cases parentpp with
    | false =>
      rw [leave, if_neg Bool.false_ne_true, observe_descend [] (apart shape)]
      exact ⟨⟨m, Or.inl rfl, rfl⟩, inside, target, rfl⟩
    | true => exact ⟨⟨m, Or.inl rfl, rfl⟩, inside, target, rfl⟩
  | @left c c' a l r t' k v trace less _ ih =>
    intro m locked parent
    obtain ⟨along, stopped⟩ := ih shape ⟨less, follows⟩ mode (a :: locked) List.mem_cons_self
    refine ⟨orderly_descend (List.ne_nil_of_mem parent) (shape.isChild follows rfl) (apart shape) along, ?_⟩
    rw [observe_descend trace (apart shape)]
    exact stopped.step m
  | @right c c' a l r t' k v trace more _ ih =>
    intro m locked parent
    obtain ⟨along, stopped⟩ := ih shape ⟨more, follows⟩ mode (a :: locked) List.mem_cons_self
    refine ⟨orderly_descend (List.ne_nil_of_mem parent) (shape.isChild follows rfl) (apart shape) along, ?_⟩
    rw [observe_descend trace (apart shape)]
    exact stopped.step m

/-! ### After the search -/

def Op.IsAccess (op : Op) : Prop := ∃ n, op = .read n ∨ op = .write n

theorem observe_access {op : Op} (access : op.IsAccess) : (h.observe op).held = h.held ∧ (h.observe op).locked = h.locked := by
  obtain ⟨n, rfl | rfl⟩ := access
  · exact ⟨rfl, rfl⟩
  · exact ⟨rfl, rfl⟩

theorem observe_accesses (accesses : ∀ op ∈ trace, op.IsAccess) :
    (trace.foldl Holding.observe h).held = h.held ∧ (trace.foldl Holding.observe h).locked = h.locked := by
  induction trace generalizing h with
  | nil => exact ⟨rfl, rfl⟩
  | cons op trace ih =>
    obtain ⟨held, locked⟩ := observe_access (h := h) (accesses op List.mem_cons_self)
    rw [List.foldl_cons, ← held, ← locked]
    exact ih fun op member => accesses op (List.mem_cons_of_mem _ member)

theorem along_accesses {P : Holding → Op → Prop} (accesses : ∀ op ∈ trace, op.IsAccess)
    (each : ∀ σ : Holding, σ.held = h.held → ∀ op ∈ trace, P σ op) : Along Holding.observe P h trace := by
  induction trace generalizing h with
  | nil => trivial
  | cons op trace ih =>
    refine ⟨each h rfl op List.mem_cons_self, ih (fun op member => accesses op (List.mem_cons_of_mem _ member)) ?_⟩
    intro σ held op member
    rw [(observe_access (accesses _ List.mem_cons_self)).1] at held
    exact each σ held op (List.mem_cons_of_mem _ member)

theorem UnlinkTrace.accesses {l r : KeyTree} (recorded : UnlinkTrace p a l r trace) : ∀ op ∈ trace, op.IsAccess := by
  intro op member
  rcases recorded with ⟨_, each⟩ | ⟨_, b, rest, _, rfl, each⟩
  · rcases each op member with rfl | rfl | rfl
    · exact ⟨a, Or.inl rfl⟩
    · exact ⟨p, Or.inl rfl⟩
    · exact ⟨p, Or.inr rfl⟩
  · simp only [List.mem_cons] at member
    rcases member with rfl | rfl | rfl | member
    · exact ⟨a, Or.inl rfl⟩
    · exact ⟨a, Or.inl rfl⟩
    · exact ⟨b, Or.inl rfl⟩
    · exact each op member

theorem orderly_release (nodes : NodeId → Option Node) (unlinked : NodeId → Prop) (different : a ≠ p) (held : h.held = [(a, mode), (p, m)]) :
    Along Holding.observe (Orderly nodes unlinked) h [.unlock p, .unlock a] ∧
      ([Op.unlock p, .unlock a].foldl Holding.observe h).held = [] ∧
      ([Op.unlock p, .unlock a].foldl Holding.observe h).locked = h.locked := by
  obtain ⟨_, locked, changed⟩ := h
  subst held
  have parent : Holding.Has ⟨[(a, mode), (p, m)], locked, changed⟩ p := ⟨m, by simp⟩
  have target : Holding.Has ⟨[(a, mode)], locked, changed⟩ a := ⟨mode, by simp⟩
  simp only [Along, List.foldl_cons, List.foldl_nil, observe_unlock_parent different]
  refine ⟨⟨⟨parent, trivial⟩, ⟨target, trivial⟩, trivial⟩, ?_, rfl⟩
  simp [Holding.observe]

theorem orderly_unlock (nodes : NodeId → Option Node) (unlinked : NodeId → Prop) (held : h.held = [(a, m)]) :
    Along Holding.observe (Orderly nodes unlinked) h [.unlock a] ∧ ([Op.unlock a].foldl Holding.observe h).held = [] := by
  have holds : h.Has a := ⟨m, by simp [held]⟩
  exact ⟨⟨⟨holds, trivial⟩, trivial⟩, by simp [Holding.observe, held]⟩

theorem Stopped.query_end {nodes : NodeId → Option Node} (stopped : Stopped false mode m p t h) :
    Along Holding.observe (Orderly nodes unlinked) h (queryEnd t) ∧ ((queryEnd t).foldl Holding.observe h).held = [] := by
  obtain ⟨m', _, held⟩ := stopped.held
  cases t with
  | nil => exact ⟨trivial, held⟩
  | node a l k v r =>
    obtain ⟨along, ends⟩ := orderly_unlock nodes unlinked held
    exact ⟨⟨⟨trivial, mode, by simp [held, stopHeld]⟩, along⟩, ends⟩

/-- `db_add` and `db_remove` search with write locks only. -/
theorem Stopped.held_write (stopped : Stopped true .write .write p t h) :
    h.held = stopHeld true .write (p, .write) t := by
  obtain ⟨m', isMode, held⟩ := stopped.held
  obtain rfl : m' = .write := by tauto
  exact held

theorem Stopped.add_end {nodes : NodeId → Option Node} (stopped : Stopped true .write .write p t h) (apart : p ∉ t.addrs) :
    Along Holding.observe (Orderly nodes unlinked) h (addEnd p t) ∧ ((addEnd p t).foldl Holding.observe h).held = [] := by
  have held := stopped.held_write
  cases t with
  | nil =>
    have holds : (p, Mode.write) ∈ h.held := by simp [held, stopHeld]
    obtain ⟨along, ends⟩ := orderly_unlock nodes unlinked (h := h.observe (.write p)) held
    exact ⟨⟨⟨trivial, .write, holds⟩, ⟨trivial, holds⟩, along⟩, ends⟩
  | node a l k v r =>
    have different : a ≠ p := fun equal => apart (equal ▸ List.mem_cons_self)
    obtain ⟨along, ends, _⟩ := orderly_release nodes unlinked different held
    exact ⟨along, ends⟩

section
variable {l r : KeyTree}

theorem unlink_coupled (nodes : NodeId → Option Node) (victim : NodeId) (recorded : UnlinkTrace p a l r trace) (different : a ≠ p)
    (held : h.held = [(a, mode), (p, m)]) :
    Along Holding.observe (Coupled nodes) h (trace ++ [.unlock p, .unlock a, .destroy victim]) ∧
      ((trace ++ [Op.unlock p, .unlock a, .destroy victim]).foldl Holding.observe h).held = [] := by
  have heldThen := (observe_accesses (h := h) recorded.accesses).1.trans held
  obtain ⟨along, ends, _⟩ := orderly_release nodes (fun _ => True) different heldThen
  rw [List.foldl_append]
  refine ⟨along_append.mpr ⟨along_accesses recorded.accesses ?_, along.1.1, along.2.1.1, trivial, trivial⟩, ends⟩
  intro σ _ op member
  obtain ⟨n, rfl | rfl⟩ := recorded.accesses op member
  · trivial
  · trivial

/-- With a child missing, only the two locked nodes are accessed, and one of them destroyed. -/
theorem unlink_guarded (unlinked : NodeId → Prop) (recorded : UnlinkTrace p a l r trace) (one : l = .nil ∨ r = .nil) (different : a ≠ p)
    (held : h.held = [(a, .write), (p, .write)]) (target : a ∈ h.locked) (gone : unlinked a) :
    Along Holding.observe (Guarded unlinked) h (trace ++ [.unlock p, .unlock a, .destroy a]) := by
  obtain ⟨heldThen, lockedThen⟩ := observe_accesses (h := h) recorded.accesses
  obtain ⟨along, _, locked⟩ := orderly_release (fun _ => none) unlinked different (heldThen.trans held)
  have each : ∀ op ∈ trace, op = .read a ∨ op = .read p ∨ op = .write p := by
    rcases recorded with ⟨_, each⟩ | ⟨left, b, rest, isB, _⟩
    · exact each
    · rcases one with isNil | isNil
      · exact absurd isNil left
      · rw [isNil] at isB
        cases isB
  refine along_append.mpr ⟨along_accesses recorded.accesses ?_, along.1.2, along.2.1.2, Or.inr ⟨?_, gone⟩, trivial⟩
  · intro σ same op member
    rcases each op member with rfl | rfl | rfl
    · exact ⟨.write, by simp [same, held]⟩
    · exact ⟨.write, by simp [same, held]⟩
    · show (p, Mode.write) ∈ σ.held
      simp [same, held]
  · rw [lockedThen] at locked
    exact locked ▸ target

/-- With both children the right one is read, and it is not locked. -/
theorem unlink_unguarded {rest : List Op} (recorded : UnlinkTrace p a l r trace) (both : l ≠ .nil ∧ r ≠ .nil)
    (apart : a ∉ r.addrs ∧ p ∉ r.addrs) (held : h.held = [(a, mode), (p, m)]) :
    ¬Along Holding.observe (Guarded unlinked) h (trace ++ rest) := by
  intro along
  rcases recorded with ⟨one, _⟩ | ⟨_, b, others, isB, rfl, _⟩
  · rcases one with isNil | isNil
    · exact both.1 isNil
    · exact both.2 isNil
  · have inside : b ∈ r.addrs := by
      cases r with
      | nil => cases isB
      | node c _ _ _ _ =>
        obtain rfl := Option.some.inj isB
        exact List.mem_cons_self
    obtain ⟨mode, holds⟩ : h.Has b := along.2.2.1
    rw [held] at holds
    simp only [List.mem_cons, Prod.mk.injEq, List.not_mem_nil, or_false] at holds
    rcases holds with ⟨rfl, _⟩ | ⟨rfl, _⟩
    · exact apart.1 inside
    · exact apart.2 inside

end

/-! ### Nodes in the tree -/

/-- Reached from `head` along child pointers. A node that was linked when it was destroyed is still
pointed at, so this tells from the store behind a call whether a node had been unlinked. -/
inductive Linked (nodes : NodeId → Option Node) : NodeId → Prop
  | head : Linked nodes head
  | child {p n : NodeId} : Linked nodes p → IsChild nodes p n → Linked nodes n

theorem mem_of_ptr {n : NodeId} (isRoot : t.ptr = some n) : n ∈ t.addrs := by
  cases t with
  | nil => cases isRoot
  | node a l k v r =>
    obtain rfl := Option.some.inj isRoot
    exact List.mem_cons_self

theorem Stored.child {nodes : NodeId → Option Node} {n : NodeId} (stored : Stored nodes t) (member : p ∈ t.addrs)
    (child : IsChild nodes p n) : n ∈ t.addrs := by
  induction t with
  | nil => cases member
  | node a l k v r ihl ihr =>
    obtain ⟨root, left, right⟩ := stored
    simp only [addrs, List.mem_cons, List.mem_append] at member ⊢
    rcases member with rfl | inLeft | inRight
    · obtain ⟨w, found, isChild⟩ := child
      obtain rfl := Option.some.inj (root.symm.trans found)
      rcases isChild with isLeft | isRight
      · exact Or.inr (Or.inl (mem_of_ptr isLeft))
      · exact Or.inr (Or.inr (mem_of_ptr isRight))
    · exact Or.inr (Or.inl (ihl left inLeft))
    · exact Or.inr (Or.inr (ihr right inRight))

theorem Shape.mem_of_linked {n : NodeId} (shape : Shape s t) (linked : Linked s.nodes n) : n ∈ head :: t.addrs := by
  induction linked with
  | head => exact List.mem_cons_self
  | @child p n _ child ih =>
    apply List.mem_cons_of_mem
    rcases List.mem_cons.mp ih with rfl | inTree
    · obtain ⟨v, found, isChild⟩ := child
      obtain rfl := Option.some.inj (shape.root.symm.trans found)
      rcases isChild with isLeft | isRight
      · cases isLeft
      · exact mem_of_ptr isRight
    · exact shape.stored.child inTree child

/-! ### Whole calls -/

/-- The call as its caller makes it, whatever becomes of the result. -/
def Call.perform (len : Nat) : Call → DbM Unit
  | .query key => do
    let _ ← dbQuery key len
    return ()
  | .add key value => do
    let _ ← dbAdd key value
    return ()
  | .remove key => do
    let _ ← dbRemove key
    return ()

/-- The removal of a node that has two children. -/
def Call.RemovesInner (t : KeyTree) : Call → Prop
  | .remove key => ∃ a l k v r, t.find key = .node a l k v r ∧ l ≠ .nil ∧ r ≠ .nil
  | _ => False

/-- What the record of a call shows: coupled and balanced locks, and guarded accesses under a condition. -/
structure Disciplined (s s' : Store) (trace : List Op) (condition : Prop) : Prop where
  coupled : Along Holding.observe (Coupled s.nodes) .start trace
  balanced : (trace.foldl Holding.observe .start).held = []
  guarded : Along Holding.observe (Guarded fun n => ¬Linked s'.nodes n) .start trace ↔ condition

theorem Shape.orderly_search (shape : Shape s t) (unlinked : NodeId → Prop)
    (descent : Descent key parentpp mode .top t c t' way) :
    Along Holding.observe (Orderly s.nodes unlinked) .start (.lock .write head :: way) ∧
      Stopped parentpp mode .write (c.owner head) t' ((Op.lock .write head :: way).foldl Holding.observe .start) := by
  obtain ⟨along, stopped⟩ := descent.orderly unlinked shape trivial .write [head] List.mem_cons_self
  exact ⟨⟨⟨⟨rfl, Nat.zero_lt_two, rfl⟩, trivial⟩, along⟩, stopped⟩

theorem disciplined_of_orderly {rest : List Op} {condition : Prop}
    (search : Along Holding.observe (Orderly s.nodes fun n => ¬Linked s'.nodes n) .start way)
    (after : Along Holding.observe (Orderly s.nodes fun n => ¬Linked s'.nodes n) (way.foldl Holding.observe .start) rest)
    (ends : (rest.foldl Holding.observe (way.foldl Holding.observe .start)).held = []) (holds : condition) :
    Disciplined s s' (way ++ rest) condition := by
  have whole := along_append.mpr ⟨search, after⟩
  refine ⟨whole.imp fun _ _ _ both => both.1, ?_, iff_of_true (whole.imp fun _ _ _ both => both.2) holds⟩
  rw [List.foldl_append]
  exact ends

theorem Shape.query_disciplined (shape : Shape s t) (key : CString) (len : Nat) :
    ∃ s' trace, Traces ((Call.query key).perform len) s () s' trace ∧ Disciplined s s' trace (¬(Call.query key).RemovesInner t) := by
  obtain ⟨c, t', way, descent, run⟩ := shape.traces_dbQuery key len
  obtain ⟨along, stopped⟩ := shape.orderly_search (fun n => ¬Linked s.nodes n) descent
  obtain ⟨after, ends⟩ := stopped.query_end
  exact ⟨s, _, run.ignored, disciplined_of_orderly along after ends not_false⟩

theorem Shape.add_disciplined (shape : Shape s t) (key value : CString) (len : Nat) :
    ∃ s' trace, Traces ((Call.add key value).perform len) s () s' trace ∧
      Disciplined s s' trace (¬(Call.add key value).RemovesInner t) := by
  obtain ⟨result, s', c, t', way, _, descent, run⟩ := shape.traces_dbAdd key value
  obtain ⟨along, stopped⟩ := shape.orderly_search (fun n => ¬Linked s'.nodes n) descent
  have whole : t = c.plug t' := descent.plug
  rw [whole] at shape
  obtain ⟨after, ends⟩ := stopped.add_end shape.owner_notIn
  exact ⟨s', _, run.ignored, disciplined_of_orderly along after ends not_false⟩

theorem Shape.remove_disciplined (shape : Shape s t) (key : CString) (len : Nat) :
    ∃ s' trace, Traces ((Call.remove key).perform len) s () s' trace ∧
      Disciplined s s' trace (¬(Call.remove key).RemovesInner t) := by
  obtain ⟨s', after, ⟨shape', _, _⟩, c, t', way, rest, descent, ends, run⟩ := shape.traces_dbRemove key
  obtain ⟨along, stopped⟩ := shape.orderly_search (fun n => ¬Linked s'.nodes n) descent
  have whole : t = c.plug t' := descent.plug
  have found : t.find key = t'.find key := by rw [whole, Ctx.find_plug (descent.follows trivial)]
  have held := stopped.held_write
  refine ⟨s', _, run.ignored, ?_⟩
  cases ends with
  | absent =>
    obtain ⟨unlock, released⟩ := orderly_unlock s.nodes (fun n => ¬Linked s'.nodes n) held
    apply disciplined_of_orderly along unlock released
    intro removes
    obtain ⟨a, l, k, v, r, isNode, _⟩ := removes
    cases found.symm.trans isNode
  | @removed a victim l r k v trace recorded isVictim outside =>
    rw [whole] at shape
    have different : a ≠ c.owner head := fun equal => shape.owner_notIn (equal ▸ List.mem_cons_self)
    obtain ⟨coupled, released⟩ := unlink_coupled s.nodes victim recorded different held
    obtain rfl : k = key := by
      rcases descent.stop with isNil | ⟨_, _, _, _, isNode⟩
      · cases isNil
      · cases isNode
        rfl
    have stops : t.find k = .node a l k v r := by rw [found, find, if_neg (lt_irrefl k), if_pos rfl]
    rw [← List.cons_append]
    refine ⟨along_append.mpr ⟨along.imp fun _ _ _ both => both.1, coupled⟩, by rw [List.foldl_append]; exact released, ?_⟩
    by_cases one : l = .nil ∨ r = .nil
    · obtain rfl : victim = a := by
        rcases one with rfl | rfl
        · cases r <;> exact (Option.some.inj isVictim).symm
        · exact (Option.some.inj isVictim).symm
      have gone : ¬Linked s'.nodes victim := fun linked => outside (shape'.mem_of_linked linked)
      have guarded := unlink_guarded (fun n => ¬Linked s'.nodes n) recorded one different held (stopped.target _ rfl) gone
      apply iff_of_true (along_append.mpr ⟨along.imp fun _ _ _ both => both.2, guarded⟩)
      intro removes
      obtain ⟨_, _, _, _, _, isNode, left, right⟩ := removes
      cases stops.symm.trans isNode
      rcases one with isNil | isNil
      · exact left isNil
      · exact right isNil
    · have both := not_or.mp one
      have apart := shape.right_apart
      refine iff_of_false ?_ (not_not.mpr ⟨a, l, k, v, r, stops, both⟩)
      intro guarded
      refine unlink_unguarded recorded both ⟨?_, ?_⟩ held (along_append.mp guarded).2
      · exact fun inside => apart.root a inside rfl
      · exact (apart.context _ (owner_context c)).2

theorem Shape.disciplined (shape : Shape s t) (len : Nat) (call : Call) :
    ∃ s' trace, Traces (call.perform len) s () s' trace ∧ Disciplined s s' trace (¬call.RemovesInner t) := by
  cases call with
  | query key => exact shape.query_disciplined key len
  | add key value => exact shape.add_disciplined key value len
  | remove key => exact shape.remove_disciplined key len

/-! ### Printing -/

def Op.locks : Op → Option NodeId
  | .lock _ n => some n
  | _ => none

def Op.unlocks : Op → Option NodeId
  | .unlock n => some n
  | _ => none

/-- `a` is `head` or another ancestor of `n`. -/
def Ancestor (t : KeyTree) (a n : NodeId) : Prop := a = head ∧ n ∈ t.addrs ∨ t.Above a n

/-- Locks are taken and released under the locks of all ancestors. -/
def Nested (t : KeyTree) (h : Holding) : Op → Prop
  | .lock _ n => ∀ a, Ancestor t a n → h.Has a
  | .unlock n => h.Has n ∧ ∀ a, Ancestor t a n → h.Has a
  | _ => True

/-- Each node is locked once and unlocked once. -/
structure Once (t : KeyTree) (trace : List Op) : Prop where
  locks : (trace.filterMap Op.locks).Nodup ∧ ∀ n, n ∈ trace.filterMap Op.locks ↔ n ∈ head :: t.addrs
  unlocks : (trace.filterMap Op.unlocks).Nodup ∧ ∀ n, n ∈ trace.filterMap Op.unlocks ↔ n ∈ head :: t.addrs

theorem printOps_locks (t : KeyTree) : (printOps t).filterMap Op.locks = t.addrs := by
  induction t with
  | nil => rfl
  | node a l k v r ihl ihr =>
    simp only [printOps, Op.locks, List.filterMap_cons, List.filterMap_append, List.filterMap_nil, ihl, ihr, addrs,
      List.append_nil]

theorem printOps_unlocks (t : KeyTree) : ((printOps t).filterMap Op.unlocks).Perm t.addrs := by
  induction t with
  | nil => exact List.Perm.refl _
  | node a l k v r ihl ihr =>
    simp only [printOps, Op.unlocks, List.filterMap_cons, List.filterMap_append, List.filterMap_nil, addrs]
    rw [← List.append_assoc]
    exact List.perm_append_comm.trans (List.Perm.cons a (ihl.append ihr))

/-- Locks of a subtree that is printed while `outer` is held. -/
structure NestedIn (outer : Holding) (t : KeyTree) (h : Holding) (n : NodeId) : Prop where
  inside : n ∈ t.addrs
  kept : ∀ a, outer.Has a → h.Has a
  above : ∀ a, t.Above a n → h.Has a

def Printing (outer : Holding) (t : KeyTree) (h : Holding) : Op → Prop
  | .lock _ n => NestedIn outer t h n
  | .unlock n => h.Has n ∧ NestedIn outer t h n
  | _ => True

/-- What holds while a subtree is printed, for the tree around it. -/
theorem Printing.outward {outer inner : Holding} {sub : KeyTree} {op : Op} (printing : Printing inner sub h op)
    (kept : ∀ b, outer.Has b → inner.Has b) (inside : ∀ n ∈ sub.addrs, n ∈ t.addrs)
    (above : ∀ b n, n ∈ sub.addrs → t.Above b n → inner.Has b ∨ sub.Above b n) : Printing outer t h op := by
  have outward : ∀ {n : NodeId}, NestedIn inner sub h n → NestedIn outer t h n := by
    intro n nested
    refine ⟨inside n nested.inside, fun b has => nested.kept b (kept b has), fun b isAbove => ?_⟩
    rcases above b n nested.inside isAbove with has | isAbove
    · exact nested.kept b has
    · exact nested.above b isAbove
  cases op with
  | lock mode n => exact outward printing
  | unlock n => exact ⟨printing.1, outward printing.2⟩
  | read n => trivial
  | write n => trivial
  | destroy n => trivial

/-- Printing a subtree ends with the locks it began with. Induction on the tree: the locks that are
held around a subtree stay so while it is printed. -/
theorem printOps_nested (t : KeyTree) : ∀ (h : Holding), t.addrs.Nodup →
    Along Holding.observe (Printing h t) h (printOps t) ∧ ((printOps t).foldl Holding.observe h).held = h.held := by
  induction t with
  | nil =>
    intro h _
    exact ⟨trivial, rfl⟩
  | node a l k v r ihl ihr =>
    intro h distinct
    obtain ⟨fresh, subtrees⟩ := List.nodup_cons.mp distinct
    obtain ⟨distinctLeft, distinctRight, cross⟩ := List.nodup_append.mp subtrees
    have root : ∀ {σ : Holding}, (∀ b, h.Has b → σ.Has b) → NestedIn h (.node a l k v r) σ a := by
      intro σ kept
      refine ⟨List.mem_cons_self, kept, ?_⟩
      intro b isAbove
      rcases isAbove with ⟨_, inside⟩ | left | right
      · exact (fresh inside).elim
      · exact (fresh (List.mem_append_left _ left.mem)).elim
      · exact (fresh (List.mem_append_right _ right.mem)).elim
    have holding : ∀ {σ : Holding}, σ.held = (a, .read) :: h.held → σ.Has a ∧ ∀ b, h.Has b → σ.Has b := by
      intro σ held
      constructor
      · exact ⟨.read, by simp [held]⟩
      · intro b has
        obtain ⟨mode, member⟩ := has
        exact ⟨mode, by simp [held, member]⟩
    obtain ⟨alongLeft, heldLeft⟩ := ihl (h.observe (.lock .read a)) distinctLeft
    have left := holding (σ := h.observe (.lock .read a)) rfl
    obtain ⟨alongRight, heldRight⟩ := ihr ((printOps l).foldl Holding.observe (h.observe (.lock .read a))) distinctRight
    have right := holding heldLeft
    have last := heldRight.trans heldLeft
    have unlock : Printing h (.node a l k v r) ((printOps r).foldl Holding.observe
        ((printOps l).foldl Holding.observe (h.observe (.lock .read a)))) (.unlock a) :=
      ⟨(holding last).1, root (holding last).2⟩
    constructor
    · refine ⟨root fun _ has => has, trivial, trivial, trivial, along_append.mpr ⟨?_, trivial, along_append.mpr ⟨?_, unlock, trivial⟩⟩⟩
      · refine alongLeft.imp fun σ op _ printing => printing.outward left.2 ?_ ?_
        · intro n member
          exact List.mem_cons_of_mem _ (List.mem_append_left _ member)
        · intro b n member isAbove
          rcases isAbove with ⟨rfl, _⟩ | isAbove | isAbove
          · exact Or.inl left.1
          · exact Or.inr isAbove
          · exact (cross n member n isAbove.mem rfl).elim
      · refine alongRight.imp fun σ op _ printing => printing.outward right.2 ?_ ?_
        · intro n member
          exact List.mem_cons_of_mem _ (List.mem_append_right _ member)
        · intro b n member isAbove
          rcases isAbove with ⟨rfl, _⟩ | isAbove | isAbove
          · exact Or.inl right.1
          · exact (cross n isAbove.mem n member rfl).elim
          · exact Or.inr isAbove
    · simp only [printOps, List.foldl_cons, List.foldl_append, List.foldl_nil]
      change (((printOps r).foldl Holding.observe ((printOps l).foldl Holding.observe (h.observe (.lock .read a)))).held.eraseP
        fun lock => lock.1 == a) = h.held
      rw [last]
      exact List.eraseP_cons_of_pos (by simp)

theorem Shape.print_once (shape : Shape s t) :
    Once t (.lock .read head :: .read head :: .read head :: (printOps t ++ [.unlock head])) := by
  have locks : (Op.lock .read head :: .read head :: .read head :: (printOps t ++ [.unlock head])).filterMap Op.locks =
      head :: t.addrs := by
    simp only [Op.locks, List.filterMap_cons, List.filterMap_append, List.filterMap_nil, printOps_locks, List.append_nil]
  have unlocks : ((Op.lock .read head :: .read head :: .read head :: (printOps t ++ [.unlock head])).filterMap
      Op.unlocks).Perm (head :: t.addrs) := by
    simp only [Op.unlocks, List.filterMap_cons, List.filterMap_append, List.filterMap_nil]
    exact List.perm_append_comm.trans (List.Perm.cons head (printOps_unlocks t))
  refine ⟨?_, unlocks.nodup_iff.mpr shape.distinct, fun n => unlocks.mem_iff⟩
  rw [locks]
  exact ⟨shape.distinct, fun n => Iff.rfl⟩

theorem Shape.print_nested (shape : Shape s t) :
    Along Holding.observe (Nested t) .start (.lock .read head :: .read head :: .read head :: (printOps t ++ [.unlock head])) ∧
      ((Op.lock .read head :: .read head :: .read head :: (printOps t ++ [.unlock head])).foldl Holding.observe .start).held = [] := by
  obtain ⟨notIn, distinct⟩ := List.nodup_cons.mp shape.distinct
  obtain ⟨along, held⟩ := printOps_nested t (Holding.start.observe (.lock .read head)) distinct
  have top : ∀ a, ¬Ancestor t a head := by
    intro a isAncestor
    rcases isAncestor with ⟨_, inside⟩ | isAbove
    · exact notIn inside
    · exact notIn isAbove.mem
  have outermost : ∀ {σ : Holding} {n : NodeId}, NestedIn (Holding.start.observe (.lock .read head)) t σ n →
      ∀ a, Ancestor t a n → σ.Has a := by
    intro σ n nested a isAncestor
    rcases isAncestor with ⟨rfl, _⟩ | isAbove
    · exact nested.kept head ⟨.read, List.mem_cons_self⟩
    · exact nested.above a isAbove
  constructor
  · refine ⟨fun a isAbove => (top a isAbove).elim, trivial, trivial, along_append.mpr ⟨along.imp ?_, ⟨?_, ?_⟩, trivial⟩⟩
    · intro σ op _ printing
      cases op with
      | lock mode n => exact outermost printing
      | unlock n => exact ⟨printing.1, outermost printing.2⟩
      | read n => trivial
      | write n => trivial
      | destroy n => trivial
    · refine ⟨.read, ?_⟩
      change (head, Mode.read) ∈ ((printOps t).foldl Holding.observe (Holding.start.observe (.lock .read head))).held
      rw [held]
      exact List.mem_cons_self
    · exact fun a isAbove => (top a isAbove).elim
  · simp only [List.foldl_cons, List.foldl_append, List.foldl_nil]
    change (((printOps t).foldl Holding.observe (Holding.start.observe (.lock .read head))).held.eraseP
      fun lock => lock.1 == head) = []
    rw [held]
    rfl

/-! ### The discipline -/

/-- Every call takes its locks hand over hand from `head` down and returns with none, and printing
locks every node once, under its ancestors. -/
theorem locks_coupled (shape : Shape s t) :
    (∀ (call : Call) (len : Nat), ∃ s' trace, call.perform len s = .ok ((), s') ∧ s'.ops = s.ops ++ trace ∧
      Along Holding.observe (Coupled s.nodes) .start trace ∧ (trace.foldl Holding.observe .start).held = []) ∧
    ∃ out s' trace, dbPrintRecurs (s.fresh + 1) (some head) 0 s = .ok (out, s') ∧ s'.ops = s.ops ++ trace ∧
      Once t trace ∧ Along Holding.observe (Nested t) .start trace ∧ (trace.foldl Holding.observe .start).held = [] := by
  constructor
  · intro call len
    obtain ⟨s', trace, run, disciplined⟩ := shape.disciplined len call
    exact ⟨_, trace, run s.ops, rfl, disciplined.coupled, disciplined.balanced⟩
  · exact ⟨_, _, _, shape.traces_dbPrintRecurs s.ops, rfl, shape.print_once, shape.print_nested⟩

theorem locks_coupled_innerKeys : ∃ s' trace, (Call.remove (text "m")).perform maxLen innerKeys = .ok ((), s') ∧
    s'.ops = trace ∧ Along Holding.observe (Coupled innerKeys.nodes) .start trace ∧
    (trace.foldl Holding.observe .start).held = [] :=
  (locks_coupled shape_innerKeys).1 (.remove (text "m")) maxLen

/-- Nodes are accessed under their locks, except that the removal of a node with two children reads
on to its successor without any. -/
theorem accesses_guarded_iff (shape : Shape s t) :
    (∀ (call : Call) (len : Nat), ∃ s' trace, call.perform len s = .ok ((), s') ∧ s'.ops = s.ops ++ trace ∧
      (Along Holding.observe (Guarded fun n => ¬Linked s'.nodes n) .start trace ↔ ¬call.RemovesInner t)) ∧
    ∀ (key : CString) (parentpp : Bool) (mode m : Mode), ∃ result s' trace,
      searchFrom key parentpp mode head s = .ok (result, s') ∧ s'.ops = s.ops ++ trace ∧
      Along Holding.observe (Guarded fun n => ¬Linked s'.nodes n) ⟨[(head, m)], [head], false⟩ trace := by
  constructor
  · intro call len
    obtain ⟨s', trace, run, disciplined⟩ := shape.disciplined len call
    exact ⟨_, trace, run s.ops, rfl, disciplined.guarded⟩
  · intro key parentpp mode m
    obtain ⟨c, t', way, descent, _, _, _, run⟩ := shape.traces_searchFrom key parentpp mode
    obtain ⟨along, _⟩ := descent.orderly (fun n => ¬Linked s.nodes n) shape trivial m [head] List.mem_cons_self
    exact ⟨_, _, way, run s.ops, rfl, along.imp fun _ _ _ both => both.2⟩

theorem accesses_guarded_iff_leaf : ∃ s' trace, (Call.remove (text "c")).perform maxLen innerKeys = .ok ((), s') ∧
    s'.ops = trace ∧ Along Holding.observe (Guarded fun n => ¬Linked s'.nodes n) .start trace := by
  obtain ⟨s', trace, run, recorded, guarded⟩ := (accesses_guarded_iff shape_innerKeys).1 (.remove (text "c")) maxLen
  refine ⟨s', trace, run, recorded, guarded.mpr ?_⟩
  intro removes
  obtain ⟨_, _, _, _, _, isLeaf, left, _⟩ := removes
  cases isLeaf
  exact left rfl

/-- The removal of `m` reads the node of `t` without its lock. -/
theorem successor_read_unlocked : ∃ s' trace, (Call.remove (text "m")).perform maxLen innerKeys = .ok ((), s') ∧
    s'.ops = trace ∧ ¬Along Holding.observe (Guarded fun n => ¬Linked s'.nodes n) .start trace := by
  obtain ⟨s', trace, run, disciplined⟩ := shape_innerKeys.disciplined maxLen (.remove (text "m"))
  refine ⟨_, trace, run [], rfl, fun guarded => disciplined.guarded.mp guarded ?_⟩
  exact ⟨1, _, _, _, _, rfl, by simp, by simp⟩

end Cs1330.Db
