import Cs1330.Lib.SearchTree
import Cs1330.Db.Nodes

/-!
# The nodes as a search tree

`Shape s t`: under `head` the store `s` holds the ordered tree `t`. `Runs x s a s'` says that `x`
returns `a` and leaves `s'`, whatever it has recorded in `ops`, and `Traces x s a s' trace` says
what that is.
-/

namespace Cs1330.Db
open SearchTree SearchTree.Tree

abbrev KeyTree := Tree NodeId CString CString
abbrev KeyCtx := Ctx NodeId CString CString

/-! ### Running `DbM` -/

def Store.withOps (s : Store) (ops : List Op) : Store := { s with ops := ops }

def Store.put (s : Store) (n : NodeId) (node : Option Node) : Store := { s with nodes := Function.update s.nodes n node }

def Runs {α : Type} (x : DbM α) (s : Store) (a : α) (s' : Store) : Prop := ∃ ops, x s = .ok (a, s'.withOps ops)

/-- The run records `trace`, in whatever call it takes part. -/
def Traces {α : Type} (x : DbM α) (s : Store) (a : α) (s' : Store) (trace : List Op) : Prop :=
  ∀ past, x (s.withOps past) = .ok (a, s'.withOps (past ++ trace))

variable {α β : Type} {s s' s'' : Store} {n : NodeId} {v : Node} {trace trace' : List Op}

theorem Runs.pure (a : α) (s : Store) : Runs (pure a : DbM α) s a s := ⟨s.ops, rfl⟩

theorem Runs.bind {x : DbM α} {f : α → DbM β} {a : α} {b : β} (first : Runs x s a s')
    (second : ∀ ops, Runs (f a) (s'.withOps ops) b s'') : Runs (x >>= f) s b s'' := by
  obtain ⟨ops, run⟩ := first
  obtain ⟨ops', rest⟩ := second ops
  refine ⟨ops', ?_⟩
  simp only [Bind.bind, StateT.bind, run, Except.bind]
  exact rest

namespace Traces

variable {x : DbM α} {f : α → DbM β} {a : α} {b : β}

theorem runs (traces : Traces x s a s' trace) (ops : List Op) : Runs x (s.withOps ops) a s' := ⟨ops ++ trace, traces ops⟩

theorem pure (a : α) (s : Store) : Traces (pure a : DbM α) s a s [] := by
  intro past
  rw [List.append_nil]
  rfl

theorem bind (first : Traces x s a s' trace) (second : Traces (f a) s' b s'' trace') :
    Traces (x >>= f) s b s'' (trace ++ trace') := by
  intro past
  simp only [Bind.bind, StateT.bind, first past, Except.bind]
  rw [← List.append_assoc]
  exact second (past ++ trace)

theorem cons {op : Op} (first : Traces x s a s' [op]) (second : Traces (f a) s' b s'' trace') :
    Traces (x >>= f) s b s'' (op :: trace') := first.bind second

theorem silent (first : Traces x s a s' []) (second : Traces (f a) s' b s'' trace') : Traces (x >>= f) s b s'' trace' :=
  first.bind second

theorem ignored (run : Traces x s a s' trace) : Traces (do let _ ← x; return ()) s () s' trace := by
  have whole : Traces (do let _ ← x; return ()) s () s' (trace ++ []) := run.bind (Traces.pure () s')
  rwa [List.append_nil] at whole

/-- What `get` returns may be used, except for the record. -/
theorem get {f : Store → DbM β} (run : ∀ past, f (s.withOps past) (s.withOps past) = .ok (b, s'.withOps (past ++ trace))) :
    Traces (MonadState.get >>= f) s b s' trace := run

end Traces

theorem traces_modify (f : Store → Store) (s : Store) (blind : ∀ ops, f (s.withOps ops) = (f s).withOps ops) :
    Traces (modify f : DbM Unit) s () (f s) [] := by
  intro past
  change Except.ok ((), f (s.withOps past)) = _
  rw [blind, List.append_nil]

theorem traces_note (op : Op) (s : Store) : Traces (note op) s () s [op] := fun _ => rfl

theorem traces_getNode (found : s.nodes n = some v) : Traces (getNode n) s v s [] := by
  apply Traces.get
  intro past
  have found : (s.withOps past).nodes n = some v := found
  rw [found]
  exact Traces.pure v s past

theorem traces_node (found : s.nodes n = some v) : Traces (node n) s v s [.read n] :=
  (traces_note _ s).bind (traces_getNode found)

theorem traces_putNode (n : NodeId) (node : Option Node) (s : Store) : Traces (putNode n node) s () (s.put n node) [] :=
  traces_modify _ s fun _ => rfl

theorem traces_setNode {change : Node → Node} (found : s.nodes n = some v) :
    Traces (setNode n change) s () (s.put n (some (change v))) [.write n] :=
  (traces_note _ s).bind ((traces_getNode found).bind (traces_putNode _ _ _))

theorem traces_rwlock {mode : Mode} (found : s.nodes n = some v) : Traces (rwlock mode n) s () s [.lock mode n] :=
  (traces_getNode found).bind (traces_note _ _)

theorem traces_unlock (found : s.nodes n = some v) : Traces (unlock n) s () s [.unlock n] :=
  (traces_getNode found).bind (traces_note _ _)

theorem traces_nodeDestructor (found : s.nodes n = some v) : Traces (nodeDestructor n) s () (s.put n none) [.destroy n] :=
  (traces_getNode found).bind ((traces_note _ _).bind (traces_putNode _ _ _))

theorem runs_node (found : s.nodes n = some v) : Runs (node n) s v s := (traces_node found).runs s.ops

theorem runs_rwlock {mode : Mode} (found : s.nodes n = some v) : Runs (rwlock mode n) s () s :=
  (traces_rwlock found).runs s.ops

theorem runs_unlock (found : s.nodes n = some v) : Runs (unlock n) s () s := (traces_unlock found).runs s.ops

theorem runs_nodeDestructor (found : s.nodes n = some v) : Runs (nodeDestructor n) s () (s.put n none) :=
  (traces_nodeDestructor found).runs s.ops

/-! ### Trees in the store -/

def Stored (nodes : NodeId → Option Node) : KeyTree → Prop
  | .nil => True
  | .node a l k v r => nodes a = some ⟨k, v, l.ptr, r.ptr⟩ ∧ Stored nodes l ∧ Stored nodes r

/-- The nodes of a context, with `hole` as the child pointer where the hole is. -/
def CtxStored (nodes : NodeId → Option Node) (hole : Option NodeId) : KeyCtx → Prop
  | .top => True
  | .left c a k v r => nodes a = some ⟨k, v, hole, r.ptr⟩ ∧ Stored nodes r ∧ CtxStored nodes (some a) c
  | .right c a l k v => nodes a = some ⟨k, v, l.ptr, hole⟩ ∧ Stored nodes l ∧ CtxStored nodes (some a) c

variable {nodes nodes' : NodeId → Option Node} {c : KeyCtx} {t t' : KeyTree} {key : CString} {hole hole' : Option NodeId}

theorem stored_plug : Stored nodes (c.plug t) ↔ CtxStored nodes t.ptr c ∧ Stored nodes t := by
  induction c generalizing t with
  | top => simp [Ctx.plug, CtxStored]
  | left c a k v r ih =>
    rw [Ctx.plug, ih, CtxStored, Stored, ptr]
    tauto
  | right c a l k v ih =>
    rw [Ctx.plug, ih, CtxStored, Stored, ptr]
    tauto

theorem Stored.congr (stored : Stored nodes t) (same : ∀ a ∈ t.addrs, nodes' a = nodes a) : Stored nodes' t := by
  induction t with
  | nil => trivial
  | node a l k v r ihl ihr =>
    obtain ⟨root, left, right⟩ := stored
    simp only [addrs, List.mem_cons, List.mem_append] at same
    exact ⟨(same a (Or.inl rfl)).trans root, ihl left fun b member => same b (Or.inr (Or.inl member)),
      ihr right fun b member => same b (Or.inr (Or.inr member))⟩

theorem CtxStored.congr (stored : CtxStored nodes hole c) (same : ∀ a ∈ c.addrs, nodes' a = nodes a) :
    CtxStored nodes' hole c := by
  induction c generalizing hole with
  | top => trivial
  | left c a k v r ih =>
    obtain ⟨frame, right, outer⟩ := stored
    simp only [Ctx.addrs, List.mem_cons, List.mem_append] at same
    exact ⟨(same a (Or.inl rfl)).trans frame, right.congr fun b member => same b (Or.inr (Or.inl member)),
      ih outer fun b member => same b (Or.inr (Or.inr member))⟩
  | right c a l k v ih =>
    obtain ⟨frame, left, outer⟩ := stored
    simp only [Ctx.addrs, List.mem_cons, List.mem_append] at same
    exact ⟨(same a (Or.inl rfl)).trans frame, left.congr fun b member => same b (Or.inr (Or.inl member)),
      ih outer fun b member => same b (Or.inr (Or.inr member))⟩

/-- Every node of a stored tree is there, with a pointer to the tree below each child. -/
theorem Stored.mem (stored : Stored nodes t) {a : NodeId} (member : a ∈ t.addrs) : ∃ v, nodes a = some v := by
  induction t with
  | nil => cases member
  | node b l k v r ihl ihr =>
    obtain ⟨root, left, right⟩ := stored
    simp only [addrs, List.mem_cons, List.mem_append] at member
    rcases member with rfl | inLeft | inRight
    · exact ⟨_, root⟩
    · exact ihl left inLeft
    · exact ihr right inRight

theorem Stored.entry {a : NodeId} {v : Node} (stored : Stored nodes t) (member : a ∈ t.addrs) (found : nodes a = some v) :
    (v.key, v.value) ∈ t.entries := by
  induction t with
  | nil => cases member
  | node b l k w r ihl ihr =>
    obtain ⟨root, left, right⟩ := stored
    simp only [addrs, List.mem_cons, List.mem_append] at member
    simp only [entries, List.mem_append, List.mem_cons]
    rcases member with rfl | inLeft | inRight
    · obtain rfl := Option.some.inj (root.symm.trans found)
      exact Or.inr (Or.inl rfl)
    · exact Or.inl (ihl left inLeft)
    · exact Or.inr (Or.inr (ihr right inRight))

/-- The child of `v` that a search for `key` goes to. -/
def childOf (key : CString) (v : Node) : Option NodeId := if strcmp key v.key < 0 then v.lchild else v.rchild

def withChild (key : CString) (v : Node) (child : Option NodeId) : Node :=
  if strcmp key v.key < 0 then { v with lchild := child } else { v with rchild := child }

theorem strcmp_nil (key : CString) : ¬strcmp key [] < 0 := by
  rw [strcmp_neg]
  exact List.not_lt_nil key

/-- Under `head` the store holds the nodes of `t`, whatever their keys. -/
structure Rooted (s : Store) (t : KeyTree) : Prop where
  root : s.nodes head = some ⟨[], [], none, t.ptr⟩
  stored : Stored s.nodes t

structure Shape (s : Store) (t : KeyTree) : Prop where
  root : s.nodes head = some ⟨[], [], none, t.ptr⟩
  stored : Stored s.nodes t
  distinct : (head :: t.addrs).Nodup
  bound : ∀ a ∈ head :: t.addrs, a < s.fresh
  ordered : t.Ordered
  /-- Stored strings fit the buffers of `MAXLEN` bytes. -/
  short : ∀ e ∈ t.entries, e.1.length < maxLen ∧ e.2.length < maxLen

theorem shape_empty : Shape Store.empty .nil := by
  refine ⟨rfl, trivial, by simp [addrs], ?_, trivial, by simp [entries]⟩
  intro a member
  obtain rfl : a = head := by simpa [addrs] using member
  decide

/-- The database after `a m 1`, `a c 2` and `a t 3`. -/
def innerKeys : Store :=
  ⟨fun n =>
    if n = 0 then some ⟨[], [], none, some 1⟩
    else if n = 1 then some ⟨text "m", text "1", some 2, some 3⟩
    else if n = 2 then some ⟨text "c", text "2", none, none⟩
    else if n = 3 then some ⟨text "t", text "3", none, none⟩
    else none, 4, [], []⟩

def innerTree : KeyTree :=
  .node 1 (.node 2 .nil (text "c") (text "2") .nil) (text "m") (text "1") (.node 3 .nil (text "t") (text "3") .nil)

theorem shape_innerKeys : Shape innerKeys innerTree := by
  have keys : innerTree.keys = [text "c", text "m", text "t"] := rfl
  refine ⟨rfl, ⟨rfl, ⟨rfl, trivial, trivial⟩, ⟨rfl, trivial, trivial⟩⟩, by decide, by decide, ?_, by decide⟩
  rw [ordered_iff, keys]
  decide

theorem stored_unique : ∀ {t u : KeyTree}, Stored nodes t → Stored nodes u → t.ptr = u.ptr → t = u := by
  intro t
  induction t with
  | nil =>
    intro u _ _ same
    cases u with
    | nil => rfl
    | node => cases same
  | node a l k v r ihl ihr =>
    intro u first second same
    cases u with
    | nil => cases same
    | node b l' k' v' r' =>
      obtain rfl : a = b := Option.some.inj same
      have content := Option.some.inj (first.1.symm.trans second.1)
      simp only [Node.mk.injEq] at content
      obtain ⟨rfl, rfl, left, right⟩ := content
      rw [ihl first.2.1 second.2.1 left, ihr first.2.2 second.2.2 right]

/-- The store determines its tree. -/
theorem Shape.unique {u : KeyTree} (shape : Shape s t) (other : Shape s u) : t = u := by
  have root := Option.some.inj (shape.root.symm.trans other.root)
  exact stored_unique shape.stored other.stored (by simpa using root)

theorem Shape.rooted (shape : Shape s t) : Rooted s t := ⟨shape.root, shape.stored⟩

theorem Shape.withOps (shape : Shape s t) (ops : List Op) : Shape (s.withOps ops) t :=
  ⟨shape.1, shape.2, shape.3, shape.4, shape.5, shape.6⟩

theorem Shape.head_notMem (shape : Shape s t) : head ∉ t.addrs := (List.nodup_cons.mp shape.distinct).1

theorem Shape.forget (shape : Shape s t) (unused : n ∉ head :: t.addrs) : Shape (s.put n none) t := by
  have different : ∀ a ∈ head :: t.addrs, a ≠ n := by
    intro a member equal
    exact unused (equal ▸ member)
  refine ⟨?_, ?_, shape.distinct, shape.bound, shape.ordered, shape.short⟩
  · exact (Function.update_of_ne (different head List.mem_cons_self) _ _).trans shape.root
  · exact shape.stored.congr fun a member => Function.update_of_ne (different a (List.mem_cons_of_mem _ member)) _ _

/-- The node that owns the hole points at what fills it. -/
theorem Rooted.owner (rooted : Rooted s (c.plug t)) (follows : c.Follows key) :
    ∃ v, s.nodes (c.owner head) = some v ∧ childOf key v = t.ptr := by
  have stored := (stored_plug.mp rooted.stored).1
  cases c with
  | top => exact ⟨_, rooted.root, if_neg (strcmp_nil key)⟩
  | left c a k v r => exact ⟨_, stored.1, if_pos ((strcmp_neg _ _).mpr follows.1)⟩
  | right c a l k v =>
    refine ⟨_, stored.1, if_neg ?_⟩
    rw [strcmp_neg]
    exact not_lt_of_gt follows.1

theorem Shape.owner (shape : Shape s (c.plug t)) (follows : c.Follows key) :
    ∃ v, s.nodes (c.owner head) = some v ∧ childOf key v = t.ptr := shape.rooted.owner follows

theorem ptr_plug (closed : c ≠ .top) (t t' : KeyTree) : (c.plug t).ptr = (c.plug t').ptr := by
  induction c generalizing t t' with
  | top => exact (closed rfl).elim
  | left c a k v r ih =>
    cases c with
    | top => rfl
    | left c b k v r => exact ih (by simp) _ _
    | right c b l k v => exact ih (by simp) _ _
  | right c a l k v ih =>
    cases c with
    | top => rfl
    | left c b k v r => exact ih (by simp) _ _
    | right c b l k v => exact ih (by simp) _ _

theorem owner_ne_top {c : KeyCtx} (closed : c ≠ .top) : c.owner head ∈ c.addrs := by
  rcases c.owner_mem head with ⟨_, top⟩ | inSpine
  · exact (closed top).elim
  · exact Ctx.mem_spine inSpine

theorem owner_context (c : KeyCtx) : c.owner head ∈ head :: c.addrs := by
  rcases c.owner_mem head with ⟨isHead, _⟩ | inSpine
  · rw [isHead]
    exact List.mem_cons_self
  · exact List.mem_cons_of_mem _ (Ctx.mem_spine inSpine)

theorem context_member {a : NodeId} (member : a ∈ head :: c.addrs) (t : KeyTree) : a ∈ head :: (c.plug t).addrs := by
  rcases List.mem_cons.mp member with rfl | inContext
  · exact List.mem_cons_self
  · exact List.mem_cons_of_mem _ (Ctx.mem_addrs_plug.mpr (Or.inl inContext))

theorem owner_member (c : KeyCtx) (t : KeyTree) : c.owner head ∈ head :: (c.plug t).addrs :=
  context_member (owner_context c) t

theorem CtxStored.refill {v : Node} (stored : CtxStored nodes hole c) (follows : c.Follows key) (closed : c ≠ .top)
    (distinct : c.addrs.Nodup) (owner : nodes (c.owner head) = some v)
    (written : nodes' (c.owner head) = some (withChild key v hole'))
    (same : ∀ a ∈ c.addrs, a ≠ c.owner head → nodes' a = nodes a) : CtxStored nodes' hole' c := by
  cases c with
  | top => exact (closed rfl).elim
  | left c a k w r =>
    obtain ⟨frame, right, outer⟩ := stored
    obtain ⟨notIn, _⟩ := List.nodup_cons.mp distinct
    have content : v = ⟨k, w, hole, r.ptr⟩ := Option.some.inj (owner.symm.trans frame)
    have less : strcmp key k < 0 := (strcmp_neg _ _).mpr follows.1
    have others : ∀ b ∈ r.addrs ++ c.addrs, nodes' b = nodes b := by
      intro b member
      apply same b (List.mem_cons_of_mem _ member)
      intro equal
      have equal : b = a := equal
      exact notIn (equal ▸ member)
    refine ⟨?_, right.congr fun b member => others b (by simp [member]), outer.congr fun b member => others b (by simp [member])⟩
    rw [content, withChild, if_pos less] at written
    exact written
  | right c a l k w =>
    obtain ⟨frame, left, outer⟩ := stored
    obtain ⟨notIn, _⟩ := List.nodup_cons.mp distinct
    have content : v = ⟨k, w, l.ptr, hole⟩ := Option.some.inj (owner.symm.trans frame)
    have more : ¬strcmp key k < 0 := by
      rw [strcmp_neg]
      exact not_lt_of_gt follows.1
    have others : ∀ b ∈ l.addrs ++ c.addrs, nodes' b = nodes b := by
      intro b member
      apply same b (List.mem_cons_of_mem _ member)
      intro equal
      have equal : b = a := equal
      exact notIn (equal ▸ member)
    refine ⟨?_, left.congr fun b member => others b (by simp [member]), outer.congr fun b member => others b (by simp [member])⟩
    rw [content, withChild, if_neg more] at written
    exact written

theorem Shape.ctx_distinct (shape : Shape s (c.plug t)) : (head :: (c.addrs ++ t.addrs)).Nodup :=
  (List.Perm.cons _ (Ctx.addrs_plug c t)).nodup_iff.mp shape.distinct

/-- The store after the pointer in the hole was changed and a new tree put there. -/
theorem Shape.refill_rooted {v : Node} (shape : Shape s (c.plug t)) (follows : c.Follows key)
    (owner : s.nodes (c.owner head) = some v)
    (written : s'.nodes (c.owner head) = some (withChild key v t'.ptr))
    (same : ∀ a ∈ head :: c.addrs, a ≠ c.owner head → s'.nodes a = s.nodes a) (stored : Stored s'.nodes t') :
    Rooted s' (c.plug t') := by
  constructor
  · by_cases closed : c = .top
    · subst closed
      have content : v = ⟨[], [], none, t.ptr⟩ := Option.some.inj (owner.symm.trans shape.root)
      rw [content, withChild, if_neg (strcmp_nil key)] at written
      exact written
    · have different : head ≠ c.owner head := by
        intro equal
        have inCtx := owner_ne_top closed
        rw [← equal] at inCtx
        exact shape.head_notMem (Ctx.mem_addrs_plug.mpr (Or.inl inCtx))
      rw [same _ List.mem_cons_self different, shape.root, ptr_plug closed t t']
  · refine stored_plug.mpr ⟨?_, stored⟩
    by_cases closed : c = .top
    · subst closed
      trivial
    · have ctxDistinct := ((List.nodup_cons.mp shape.ctx_distinct).2).of_append_left
      exact (stored_plug.mp shape.stored).1.refill follows closed ctxDistinct owner written
        fun a member => same a (List.mem_cons_of_mem _ member)

theorem Shape.refill {v : Node} (shape : Shape s (c.plug t)) (follows : c.Follows key)
    (owner : s.nodes (c.owner head) = some v)
    (written : s'.nodes (c.owner head) = some (withChild key v t'.ptr))
    (same : ∀ a ∈ head :: c.addrs, a ≠ c.owner head → s'.nodes a = s.nodes a) (stored : Stored s'.nodes t')
    (distinct : (head :: (c.plug t').addrs).Nodup) (bound : ∀ a ∈ head :: (c.plug t').addrs, a < s'.fresh)
    (ordered : (c.plug t').Ordered) (short : ∀ e ∈ (c.plug t').entries, e.1.length < maxLen ∧ e.2.length < maxLen) :
    Shape s' (c.plug t') := by
  have rooted := shape.refill_rooted follows owner written same stored
  exact ⟨rooted.root, rooted.stored, distinct, bound, ordered, short⟩

end Cs1330.Db
