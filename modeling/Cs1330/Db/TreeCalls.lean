import Mathlib.Tactic.IntervalCases
import Cs1330.Db.TreeRep

/-!
# The calls on the tree

`search`, the insertion of a node under the owner of a hole and the removal of a node, as runs over
a store that holds a search tree: what each returns and the tree that it leaves.
-/

namespace Cs1330.Db
open SearchTree SearchTree.Tree

variable {s s' : Store} {n : NodeId} {v : Node} {c : KeyCtx} {t : KeyTree} {key : CString} {trace : List Op}

/-! ### Steps -/

theorem traces_childFor (found : s.nodes n = some v) :
    Traces (childFor key n) s (childOf key v) s [.read n, .read n] := by
  apply (traces_node found).cons
  rw [childOf]
  by_cases less : strcmp key v.key < 0
  · rw [if_pos less, if_pos less]
    exact (traces_node found).cons (Traces.pure _ _)
  · rw [if_neg less, if_neg less]
    exact (traces_node found).cons (Traces.pure _ _)

theorem runs_childFor (found : s.nodes n = some v) : Runs (childFor key n) s (childOf key v) s :=
  (traces_childFor found).runs s.ops

theorem traces_setChildFor {child : Option NodeId} (found : s.nodes n = some v) :
    Traces (setChildFor key n child) s () (s.put n (some (withChild key v child))) [.read n, .write n] := by
  apply (traces_node found).cons
  rw [withChild]
  by_cases less : strcmp key v.key < 0
  · rw [if_pos less, if_pos less]
    exact traces_setNode found
  · rw [if_neg less, if_neg less]
    exact traces_setNode found

theorem snprintf_short {text : CString} (short : text.length < maxLen) : snprintf maxLen text = text :=
  List.take_of_length_le (by simp only [maxLen] at short ⊢; omega)

/-- The store after `count` calls of `malloc`. -/
def Store.spend (s : Store) (count : Nat) : Store := { s with mallocs := s.mallocs.drop count }

/-- The outcome of the `malloc` call after the next `k` ones. -/
def Store.grants (s : Store) (k : Nat) : Bool := (s.mallocs[k]?).getD true

theorem traces_malloc {outcome : Bool} {k : Nat} (granted : s.grants k = outcome) :
    Traces malloc (s.spend k) outcome (s.spend (k + 1)) [] := by
  subst granted
  apply Traces.get
  intro past
  have spent : ((s.spend k).withOps past).mallocs = s.mallocs.drop k := rfl
  rw [spent]
  cases left : s.mallocs.drop k with
  | nil =>
    have short := List.drop_eq_nil_iff.mp left
    have isTrue : s.grants k = true := by rw [Store.grants, List.getElem?_eq_none short]; rfl
    have same : s.spend (k + 1) = s.spend k := by rw [Store.spend, Store.spend, left, List.drop_eq_nil_of_le (by omega)]
    rw [isTrue, same]
    exact Traces.pure true (s.spend k) past
  | cons outcome rest =>
    have here : s.grants k = outcome := by rw [Store.grants, ← List.head?_drop, left]; rfl
    have after : s.spend (k + 1) = { s.spend k with mallocs := rest } := by
      rw [Store.spend, ← List.tail_drop, left]
      rfl
    rw [here, after]
    exact ((traces_modify (fun db => { db with mallocs := rest }) (s.spend k) fun _ => rfl).silent (Traces.pure outcome _)) past

/-- Each of the three calls of `malloc` in `node_constructor` succeeds. -/
def Granted (s : Store) : Prop := ∀ k < 3, s.grants k = true

instance (s : Store) : Decidable (Granted s) := inferInstanceAs (Decidable (∀ k < 3, s.grants k = true))

theorem granted_of_nil (succeeds : s.mallocs = []) : Granted s := by
  intro k _
  rw [Store.grants, succeeds]
  rfl

theorem traces_nodeConstructor {value : CString} (granted : Granted s) (keyFits : key.length ≤ maxLen)
    (valueFits : value.length ≤ maxLen) :
    Traces (nodeConstructor key value none none) s (some s.fresh)
      (({ s.spend 3 with fresh := s.fresh + 1 } : Store).put s.fresh
        (some ⟨snprintf maxLen key, snprintf maxLen value, none, none⟩)) [] := by
  unfold nodeConstructor
  rw [if_neg (by omega)]
  apply Traces.silent (traces_malloc (granted 0 (by omega)))
  apply Traces.silent (traces_malloc (granted 1 (by omega)))
  apply Traces.silent (traces_malloc (granted 2 (by omega)))
  apply Traces.get
  intro past
  have fresh : Traces (modify fun db => { db with fresh := s.fresh + 1 } : DbM Unit) (s.spend 3) ()
      { s.spend 3 with fresh := s.fresh + 1 } [] := traces_modify _ _ fun _ => rfl
  exact (fresh.silent ((traces_putNode s.fresh _ _).silent (Traces.pure (some s.fresh) _))) past

theorem traces_nodeConstructor_refused {value : CString}
    (refused : ¬(key.length ≤ maxLen ∧ value.length ≤ maxLen ∧ Granted s)) :
    ∃ count, Traces (nodeConstructor key value none none) s none (s.spend count) [] := by
  unfold nodeConstructor
  by_cases long : key.length > maxLen ∨ value.length > maxLen
  · rw [if_pos long]
    exact ⟨0, Traces.pure _ _⟩
  rw [if_neg long]
  cases first : s.grants 0 with
  | false => exact ⟨1, Traces.silent (traces_malloc first) (Traces.pure _ _)⟩
  | true =>
    cases second : s.grants 1 with
    | false => exact ⟨2, Traces.silent (traces_malloc first) (Traces.silent (traces_malloc second) (Traces.pure _ _))⟩
    | true =>
      cases third : s.grants 2 with
      | false =>
        refine ⟨3, Traces.silent (traces_malloc first) (Traces.silent (traces_malloc second) ?_)⟩
        exact Traces.silent (traces_malloc third) (Traces.pure _ _)
      | true =>
        refine absurd ⟨by omega, by omega, ?_⟩ refused
        intro k bound
        interval_cases k
        · exact first
        · exact second
        · exact third

/-! ### Search -/

/-- What `search` does with the parent in the end: it stays locked when the caller wants it. -/
def leave (parentpp : Bool) (parent : NodeId) : List Op := if parentpp then [] else [.unlock parent]

theorem traces_searchEnd (parentpp : Bool) (result : Option NodeId) (found : s.nodes n = some v) :
    Traces (if (!parentpp) = true then (do
        let _ ← unlock n
        pure (result, n) : DbM (Option NodeId × NodeId)) else pure (result, n)) s (result, n) s (leave parentpp n) := by
  cases parentpp with
  | false => exact (traces_unlock found).cons (Traces.pure _ _)
  | true => exact Traces.pure _ _

/-- The way of `search` from the tree in one hole to where it stops, with what it records. -/
inductive Descent (key : CString) (parentpp : Bool) (mode : Mode) : KeyCtx → KeyTree → KeyCtx → KeyTree → List Op → Prop
  | missing (c : KeyCtx) : Descent key parentpp mode c .nil c .nil
      (.read (c.owner head) :: .read (c.owner head) :: leave parentpp (c.owner head))
  | found (c : KeyCtx) (a : NodeId) (l : KeyTree) (v : CString) (r : KeyTree) :
      Descent key parentpp mode c (.node a l key v r) c (.node a l key v r)
        (.read (c.owner head) :: .read (c.owner head) :: .lock mode a :: .read a :: leave parentpp (c.owner head))
  | left {c c' : KeyCtx} {a : NodeId} {l r t' : KeyTree} {k v : CString} {trace : List Op} : key < k →
      Descent key parentpp mode (c.left a k v r) l c' t' trace →
      Descent key parentpp mode c (.node a l k v r) c' t'
        (.read (c.owner head) :: .read (c.owner head) :: .lock mode a :: .read a :: .unlock (c.owner head) :: trace)
  | right {c c' : KeyCtx} {a : NodeId} {l r t' : KeyTree} {k v : CString} {trace : List Op} : k < key →
      Descent key parentpp mode (c.right a l k v) r c' t' trace →
      Descent key parentpp mode c (.node a l k v r) c' t'
        (.read (c.owner head) :: .read (c.owner head) :: .lock mode a :: .read a :: .unlock (c.owner head) :: trace)

section
variable {parentpp : Bool} {mode : Mode} {c' : KeyCtx} {t' : KeyTree}

theorem Descent.plug (descent : Descent key parentpp mode c t c' t' trace) : c.plug t = c'.plug t' := by
  induction descent with
  | missing | found => rfl
  | left _ _ ih => exact ih
  | right _ _ ih => exact ih

theorem Descent.follows (descent : Descent key parentpp mode c t c' t' trace) (follows : c.Follows key) :
    c'.Follows key := by
  induction descent with
  | missing | found => exact follows
  | left less _ ih => exact ih ⟨less, follows⟩
  | right more _ ih => exact ih ⟨more, follows⟩

/-- It stops where the key is, or where it would be. -/
theorem Descent.stop (descent : Descent key parentpp mode c t c' t' trace) :
    t' = .nil ∨ ∃ a l v r, t' = .node a l key v r := by
  induction descent with
  | missing c => exact Or.inl rfl
  | found c a l v r => exact Or.inr ⟨a, l, v, r, rfl⟩
  | left _ _ ih => exact ih
  | right _ _ ih => exact ih

/-- `search` from the owner of a hole that is on the way to `key`. Induction on the tree below. -/
theorem Rooted.traces_search (key : CString) (parentpp : Bool) (mode : Mode) (t : KeyTree) :
    ∀ (s : Store) (c : KeyCtx) (rounds : Nat), Rooted s (c.plug t) → c.Follows key → t.addrs.length < rounds →
      ∃ c' t' trace, Descent key parentpp mode c t c' t' trace ∧
        Traces (search key parentpp mode rounds (c.owner head)) s (t'.ptr, c'.owner head) s trace := by
  induction t with
  | nil =>
    intro s c rounds rooted follows bound
    obtain ⟨rounds, rfl⟩ : ∃ k, rounds = k + 1 := ⟨rounds - 1, by omega⟩
    obtain ⟨v, found, child⟩ := rooted.owner follows
    have next : Traces (childFor key (c.owner head)) s (childOf key v) s _ := traces_childFor found
    rw [child] at next
    refine ⟨c, .nil, _, .missing c, ?_⟩
    rw [search]
    exact next.bind (traces_searchEnd parentpp none found)
  | node a l k v r ihl ihr =>
    intro s c rounds rooted follows bound
    simp only [addrs, List.length_cons, List.length_append] at bound
    obtain ⟨rounds, rfl⟩ : ∃ k, rounds = k + 1 := ⟨rounds - 1, by omega⟩
    obtain ⟨w, found, child⟩ := rooted.owner follows
    have next : Traces (childFor key (c.owner head)) s (childOf key w) s _ := traces_childFor found
    rw [child] at next
    have root : s.nodes a = some ⟨k, v, l.ptr, r.ptr⟩ := (stored_plug.mp rooted.stored).2.1
    by_cases same : key = k
    · subst same
      refine ⟨c, _, _, .found c a l v r, ?_⟩
      rw [search]
      apply next.bind
      apply (traces_rwlock root).cons
      apply (traces_node root).cons
      rw [if_neg (by simp [strcmp_eq_zero])]
      exact traces_searchEnd parentpp (some a) found
    · have descend : ∀ {result : Option NodeId × NodeId} {trace : List Op},
          Traces (search key parentpp mode rounds a) s result s trace →
          Traces (search key parentpp mode (rounds + 1) (c.owner head)) s result s
            (.read (c.owner head) :: .read (c.owner head) :: .lock mode a :: .read a :: .unlock (c.owner head) :: trace) := by
        intro result trace below
        rw [search]
        apply next.bind
        apply (traces_rwlock root).cons
        apply (traces_node root).cons
        rw [if_pos (by simpa [strcmp_eq_zero] using same)]
        exact (traces_unlock found).cons below
      rcases lt_or_gt_of_ne same with less | more
      · obtain ⟨c', t', trace, way, run⟩ := ihl s (c.left a k v r) rounds rooted ⟨less, follows⟩ (by omega)
        exact ⟨c', t', _, way.left less, descend run⟩
      · obtain ⟨c', t', trace, way, run⟩ := ihr s (c.right a l k v) rounds rooted ⟨more, follows⟩ (by omega)
        exact ⟨c', t', _, way.right more, descend run⟩

end

theorem length_lt_of_bound {fresh : Nat} (distinct : (head :: t.addrs).Nodup) (bound : ∀ a ∈ head :: t.addrs, a < fresh) :
    t.addrs.length < fresh := by
  have sub : (head :: t.addrs) ⊆ List.range fresh := by
    intro a member
    exact List.mem_range.mpr (bound a member)
  have length := (distinct.subperm sub).length_le
  rw [List.length_cons, List.length_range] at length
  omega

theorem Shape.length_lt_fresh (shape : Shape s t) : t.addrs.length < s.fresh :=
  length_lt_of_bound shape.distinct shape.bound

theorem Rooted.traces_searchFrom (rooted : Rooted s t) (bound : t.addrs.length < s.fresh) (key : CString) (parentpp : Bool)
    (mode : Mode) :
    ∃ c t' trace, Descent key parentpp mode .top t c t' trace ∧ t = c.plug t' ∧ c.Follows key ∧
      (t' = .nil ∨ ∃ a l v r, t' = .node a l key v r) ∧
      Traces (searchFrom key parentpp mode head) s (t'.ptr, c.owner head) s trace := by
  obtain ⟨c, t', trace, way, run⟩ := Rooted.traces_search key parentpp mode t s .top s.fresh rooted trivial bound
  exact ⟨c, t', trace, way, way.plug, way.follows trivial, way.stop, Traces.get run⟩

theorem Shape.traces_searchFrom (shape : Shape s t) (key : CString) (parentpp : Bool) (mode : Mode) :
    ∃ c t' trace, Descent key parentpp mode .top t c t' trace ∧ t = c.plug t' ∧ c.Follows key ∧
      (t' = .nil ∨ ∃ a l v r, t' = .node a l key v r) ∧
      Traces (searchFrom key parentpp mode head) s (t'.ptr, c.owner head) s trace :=
  shape.rooted.traces_searchFrom shape.length_lt_fresh key parentpp mode

/-- What `db_add` and `db_remove` keep of the store besides the nodes. -/
structure SameRest (s s' : Store) (grown : Nat) : Prop where
  fresh : s'.fresh = s.fresh + grown
  mallocs : s'.mallocs = s.mallocs

theorem Shape.traces_addUnder_made {value : CString} (shape : Shape s (c.plug .nil)) (follows : c.Follows key)
    (granted : Granted s) (keyFits : key.length ≤ maxLen) (valueFits : value.length ≤ maxLen) :
    ∃ s', Traces (addUnder key value (c.owner head)) s () s' [.read (c.owner head), .write (c.owner head)] ∧
      Rooted s' (c.plug (.node s.fresh .nil (snprintf maxLen key) (snprintf maxLen value) .nil)) ∧
      s'.fresh = s.fresh + 1 ∧ s'.mallocs = s.mallocs.drop 3 ∧
      ∀ a, a ≠ c.owner head → a ≠ s.fresh → s'.nodes a = s.nodes a := by
  obtain ⟨v, found, _⟩ := shape.owner follows
  have old : ∀ a ∈ head :: c.addrs, a < s.fresh := fun a member => shape.bound a (context_member member .nil)
  have ownerOld : c.owner head ≠ s.fresh := ne_of_lt (old _ (owner_context c))
  let made := (({ s.spend 3 with fresh := s.fresh + 1 } : Store).put s.fresh
    (some ⟨snprintf maxLen key, snprintf maxLen value, none, none⟩))
  have madeOwner : made.nodes (c.owner head) = some v := by
    show Function.update s.nodes s.fresh _ (c.owner head) = some v
    rw [Function.update_of_ne ownerOld, found]
  let linked := made.put (c.owner head) (some (withChild key v (some s.fresh)))
  have linkedOther : ∀ a, a ≠ c.owner head → linked.nodes a = made.nodes a := by
    intro a different
    exact Function.update_of_ne different _ _
  have madeOther : ∀ a, a ≠ s.fresh → made.nodes a = s.nodes a := by
    intro a different
    exact Function.update_of_ne different _ _
  refine ⟨linked, ?_, ?_, rfl, rfl, ?_⟩
  · unfold addUnder
    exact (traces_nodeConstructor granted keyFits valueFits).silent (traces_setChildFor madeOwner)
  · apply shape.refill_rooted follows found (Function.update_self _ _ _)
    · intro a member different
      rw [linkedOther a different, madeOther a (ne_of_lt (old a member))]
    · refine ⟨?_, trivial, trivial⟩
      rw [linkedOther _ ownerOld.symm]
      exact Function.update_self _ _ _
  · intro a notOwner notFresh
    rw [linkedOther a notOwner, madeOther a notFresh]

theorem Shape.insert_addrs (shape : Shape s (c.plug .nil)) (k value : CString) :
    (head :: (c.plug (.node s.fresh .nil k value .nil)).addrs).Nodup ∧
      ∀ a ∈ head :: (c.plug (.node s.fresh .nil k value .nil)).addrs, a < s.fresh + 1 := by
  have old : ∀ a ∈ head :: c.addrs, a < s.fresh := fun a member => shape.bound a (context_member member .nil)
  have perm := Ctx.addrs_plug c (.node s.fresh .nil k value .nil)
  have distinct := shape.ctx_distinct
  constructor
  · apply (List.Perm.cons head perm).nodup_iff.mpr
    simp only [addrs, List.append_nil] at distinct ⊢
    have fresh : s.fresh ∉ head :: c.addrs := fun member => lt_irrefl _ (old _ member)
    have whole : ((head :: c.addrs) ++ [s.fresh]).Perm ([s.fresh] ++ (head :: c.addrs)) := List.perm_append_comm
    exact whole.nodup_iff.mpr (List.nodup_cons.mpr ⟨fresh, distinct⟩)
  · intro a member
    have member := (List.Perm.cons head perm).mem_iff.mp member
    simp only [addrs, List.append_nil, List.mem_cons, List.mem_append, List.not_mem_nil, or_false] at member
    rcases member with rfl | inCtx | rfl
    · exact Nat.lt_succ_of_lt (old _ List.mem_cons_self)
    · exact Nat.lt_succ_of_lt (old _ (List.mem_cons_of_mem _ inCtx))
    · exact Nat.lt_succ_self _

theorem Shape.insert_short {a : NodeId} {k value : CString} (shape : Shape s (c.plug .nil)) (keyShort : k.length < maxLen)
    (valueShort : value.length < maxLen) :
    ∀ e ∈ (c.plug (.node a .nil k value .nil)).entries, e.1.length < maxLen ∧ e.2.length < maxLen := by
  intro e member
  rw [Ctx.entries_plug] at member
  simp only [entries, List.nil_append, List.mem_append, List.mem_singleton] at member
  have others := shape.short
  rw [Ctx.entries_plug] at others
  simp only [entries, List.append_nil, List.mem_append] at others
  rcases member with (inBefore | rfl) | inAfter
  · exact others e (Or.inl inBefore)
  · exact ⟨keyShort, valueShort⟩
  · exact others e (Or.inr inAfter)

/-- Keys and values that fit their buffers are stored as they are. -/
theorem Rooted.shape_insert {value : CString} (shape : Shape s (c.plug .nil)) (follows : c.Follows key)
    (keyShort : key.length < maxLen) (valueShort : value.length < maxLen) (fresh : s'.fresh = s.fresh + 1)
    (rooted : Rooted s' (c.plug (.node s.fresh .nil (snprintf maxLen key) (snprintf maxLen value) .nil))) :
    Shape s' (c.plug (.node s.fresh .nil key value .nil)) := by
  rw [snprintf_short keyShort, snprintf_short valueShort] at rooted
  obtain ⟨distinct, bound⟩ := shape.insert_addrs key value
  rw [← fresh] at bound
  exact ⟨rooted.root, rooted.stored, distinct, bound, ordered_insert shape.ordered follows,
    shape.insert_short keyShort valueShort⟩

theorem Shape.runs_addUnder {value : CString} (shape : Shape s (c.plug .nil)) (follows : c.Follows key)
    (succeeds : s.mallocs = []) (keyShort : key.length < maxLen) (valueShort : value.length < maxLen) :
    ∃ s', (∀ ops, Runs (addUnder key value (c.owner head)) (s.withOps ops) () s') ∧
      Shape s' (c.plug (.node s.fresh .nil key value .nil)) ∧ SameRest s s' 1 ∧
      ∀ a, a ≠ c.owner head → a ≠ s.fresh → s'.nodes a = s.nodes a := by
  obtain ⟨s', run, rooted, fresh, mallocs, frame⟩ :=
    shape.traces_addUnder_made follows (granted_of_nil succeeds) (Nat.le_of_lt keyShort) (Nat.le_of_lt valueShort)
  refine ⟨s', run.runs, rooted.shape_insert shape follows keyShort valueShort fresh, ⟨fresh, ?_⟩, frame⟩
  rw [mallocs, succeeds]
  rfl

theorem withChild_childOf (key : CString) (v : Node) : withChild key v (childOf key v) = v := by
  unfold withChild childOf
  split <;> rfl

/-- Without a node the null child is written again. -/
theorem Shape.traces_addUnder_refused {value : CString} (shape : Shape s (c.plug .nil)) (follows : c.Follows key)
    (refused : ¬(key.length ≤ maxLen ∧ value.length ≤ maxLen ∧ Granted s)) :
    ∃ count, Traces (addUnder key value (c.owner head)) s () (s.spend count)
      [.read (c.owner head), .write (c.owner head)] := by
  obtain ⟨v, found, child⟩ := shape.owner follows
  obtain ⟨count, none⟩ := traces_nodeConstructor_refused refused
  refine ⟨count, ?_⟩
  have same : withChild key v Option.none = v := by
    have back := withChild_childOf key v
    rwa [child] at back
  have put : (s.spend count).put (c.owner head) (some v) = s.spend count := by
    have kept : Function.update s.nodes (c.owner head) (some v) = s.nodes := by
      rw [← found]
      exact Function.update_eq_self _ _
    rw [Store.put, Store.spend]
    simp only [kept]
  have write : Traces (setChildFor key (c.owner head) Option.none) (s.spend count) ()
      ((s.spend count).put (c.owner head) (some (withChild key v Option.none))) _ := traces_setChildFor found
  rw [same, put] at write
  unfold addUnder
  exact none.silent write

/-- Where the loop of `db_remove` stops: at the least node of the tree, whose left child is null.
Writing its right child into the field that points at it takes it out of the tree. -/
structure Leftmost (nodes : NodeId → Option Node) (t : KeyTree) (least : NodeId × CString × CString × KeyTree)
    (pnext slot : NodeId × Side) (right : Option NodeId) : Prop where
  found : nodes least.1 = some ⟨least.2.1, least.2.2.1, none, right⟩
  taken : (slot = pnext ∧ right = least.2.2.2.ptr ∧ Stored nodes least.2.2.2) ∨
    ∃ e v, slot = (e, .left) ∧ e ∈ t.chain ∧ e ≠ least.1 ∧ nodes e = some v ∧ least.2.2.2.ptr = t.ptr ∧
      ∀ nodes', nodes' e = some { v with lchild := right } → (∀ a ∈ t.addrs, a ≠ e → nodes' a = nodes a) →
        Stored nodes' least.2.2.2

theorem traces_leftmost (l : KeyTree) :
    ∀ (a : NodeId) (k value : CString) (r : KeyTree) (pnext : NodeId × Side) (rounds : Nat),
      Stored s.nodes (.node a l k value r) → (addrs (.node a l k value r)).Nodup → l.addrs.length < rounds →
      ∃ slot right, Traces (leftmost rounds a pnext) s ((popMin a k value r l).1, slot) s
          ((chain (.node a l k value r)).map .read) ∧
        Leftmost s.nodes (.node a l k value r) (popMin a k value r l) pnext slot right := by
  induction l with
  | nil =>
    intro a k value r pnext rounds stored distinct bound
    obtain ⟨rounds, rfl⟩ : ∃ k, rounds = k + 1 := ⟨rounds - 1, by omega⟩
    obtain ⟨root, _, right⟩ := stored
    refine ⟨pnext, r.ptr, ?_, root, Or.inl ⟨rfl, rfl, right⟩⟩
    rw [leftmost]
    exact (traces_node root).cons (Traces.pure _ _)
  | node b l' k' value' r' ihl _ =>
    intro a k value r pnext rounds stored distinct bound
    simp only [addrs, List.length_cons, List.length_append] at bound
    obtain ⟨rounds, rfl⟩ : ∃ k, rounds = k + 1 := ⟨rounds - 1, by omega⟩
    obtain ⟨root, left, rightStored⟩ := stored
    have split := List.nodup_cons.mp distinct
    obtain ⟨slot, right, run, stop⟩ := ihl b k' value' r' (a, .left) rounds left split.2.of_append_left (by omega)
    refine ⟨slot, right, ?_, stop.found, Or.inr ?_⟩
    · rw [leftmost]
      exact (traces_node root).cons run
    · have inChain : (popMin b k' value' r' l').1 ∈ addrs (.node b l' k' value' r') :=
        chain_subset _ _ (popMin_mem_chain b k' value' r' l')
      have notInner : a ∉ addrs (.node b l' k' value' r') := fun member => split.1 (List.mem_append_left _ member)
      have apart : ∀ x ∈ addrs (.node b l' k' value' r'), x ∉ r.addrs := by
        intro x inLeft inRight
        exact (List.nodup_append.mp split.2).2.2 x inLeft x inRight rfl
      rcases stop.taken with ⟨rfl, rfl, restStored⟩ | ⟨e, v, rfl, eMem, eOther, eFound, ptr, writes⟩
      · -- The least node is the left child itself: its parent is the root.
        refine ⟨a, _, rfl, List.mem_cons_self, fun equal => notInner (equal ▸ inChain), root, rfl, ?_⟩
        intro nodes' written same
        have kept : ∀ x ∈ addrs (.node b l' k' value' r'), nodes' x = s.nodes x := by
          intro x member
          apply same x (List.mem_cons_of_mem _ (List.mem_append_left _ member))
          exact fun equal => notInner (equal ▸ member)
        have rest : ∀ x ∈ (popMin b k' value' r' l').2.2.2.addrs, x ∈ addrs (.node b l' k' value' r') := by
          intro x member
          exact (addrs_popMin b k' value' r' l').mem_iff.mpr (List.mem_cons_of_mem _ member)
        refine ⟨written, restStored.congr fun x member => kept x (rest x member), rightStored.congr fun x member => ?_⟩
        apply same x (List.mem_cons_of_mem _ (List.mem_append_right _ member))
        exact fun equal => split.1 (List.mem_append_right _ (equal ▸ member))
      · have eInner := chain_subset _ _ eMem
        refine ⟨e, v, rfl, List.mem_cons_of_mem _ eMem, eOther, eFound, rfl, ?_⟩
        intro nodes' written same
        have inner := writes nodes' written fun x member different =>
          same x (List.mem_cons_of_mem _ (List.mem_append_left _ member)) different
        refine ⟨?_, inner, rightStored.congr fun x member => ?_⟩
        · rw [same a List.mem_cons_self fun equal => notInner (equal ▸ eInner), root, ptr]
        · apply same x (List.mem_cons_of_mem _ (List.mem_append_right _ member))
          exact fun equal => apart e eInner (equal ▸ member)

section
variable {d : NodeId} {l r : KeyTree} {value : CString}

theorem addrs_plug_remove (c : KeyCtx) (d : NodeId) (l : KeyTree) (key value : CString) (r : KeyTree) :
    ∃ victim, Tree.victim (.node d l key value r) = some victim ∧
      (head :: (c.plug (.node d l key value r)).addrs).Perm
        (victim :: head :: (c.plug (removeRoot (.node d l key value r))).addrs) := by
  obtain ⟨victim, isVictim, perm⟩ := addrs_removeRoot d l key value r
  refine ⟨victim, isVictim, ?_⟩
  apply (List.Perm.cons head ((Ctx.addrs_plug c _).trans (List.Perm.append_left _ perm))).trans
  refine (List.Perm.cons head List.perm_middle).trans ((List.Perm.swap _ _ _).trans ?_)
  exact List.Perm.cons _ (List.Perm.cons head (Ctx.addrs_plug c _).symm)

theorem Shape.remove_addrs (shape : Shape s (c.plug (.node d l key value r))) :
    (head :: (c.plug (removeRoot (.node d l key value r))).addrs).Nodup ∧
      ∀ a ∈ head :: (c.plug (removeRoot (.node d l key value r))).addrs, a < s.fresh := by
  obtain ⟨victim, _, perm⟩ := addrs_plug_remove c d l key value r
  refine ⟨(List.nodup_cons.mp (perm.nodup_iff.mp shape.distinct)).2, ?_⟩
  intro a member
  exact shape.bound a (perm.mem_iff.mpr (List.mem_cons_of_mem _ member))

theorem Shape.remove_short (shape : Shape s (c.plug (.node d l key value r))) :
    ∀ e ∈ (c.plug (removeRoot (.node d l key value r))).entries, e.1.length < maxLen ∧ e.2.length < maxLen := by
  intro e member
  apply shape.short
  rw [Ctx.entries_plug, entries_removeRoot] at member
  rw [Ctx.entries_plug, entries]
  simp only [List.mem_append, List.mem_cons] at member ⊢
  tauto

theorem Shape.owner_notIn (shape : Shape s (c.plug t)) : c.owner head ∉ t.addrs := by
  intro member
  have distinct := shape.ctx_distinct
  rw [← List.cons_append] at distinct
  exact (List.nodup_append.mp distinct).2.2 _ (owner_context c) _ member rfl

/-- The node that is removed and its right subtree, and what lies apart from them. -/
structure RightApart (c : KeyCtx) (d : NodeId) (l r : KeyTree) : Prop where
  root : ∀ a ∈ r.addrs, a ≠ d
  left : ∀ a ∈ l.addrs, a ≠ d ∧ a ∉ r.addrs
  context : ∀ a ∈ head :: c.addrs, a ≠ d ∧ a ∉ r.addrs

theorem Shape.right_apart (shape : Shape s (c.plug (.node d l key value r))) : RightApart c d l r := by
  have whole := shape.ctx_distinct
  rw [← List.cons_append] at whole
  obtain ⟨_, inner, outer⟩ := List.nodup_append.mp whole
  obtain ⟨rootFresh, subtrees⟩ := List.nodup_cons.mp inner
  refine ⟨?_, ?_, ?_⟩
  · intro a member equal
    exact rootFresh (List.mem_append_right _ (equal ▸ member))
  · intro a member
    refine ⟨fun equal => rootFresh (List.mem_append_left _ (equal ▸ member)), ?_⟩
    exact fun inRight => (List.nodup_append.mp subtrees).2.2 a member a inRight rfl
  · intro a member
    refine ⟨fun equal => outer a member d List.mem_cons_self equal, ?_⟩
    exact fun inRight => outer a member a (List.mem_cons_of_mem _ (List.mem_append_right _ inRight)) rfl

/-- The two branches of `db_remove` in which `dnode` lacks a child. -/
theorem Shape.unlink_one {v : Node} (shape : Shape s (c.plug (.node d l key value r))) (follows : c.Follows key)
    (owner : s.nodes (c.owner head) = some v) (one : l = .nil ∨ r = .nil) :
    Shape (s.put (c.owner head) (some (withChild key v (removeRoot (.node d l key value r)).ptr)))
      (c.plug (removeRoot (.node d l key value r))) := by
  obtain ⟨_, left, right⟩ := (stored_plug.mp shape.stored).2
  have notIn := shape.owner_notIn
  have other : ∀ a, a ≠ c.owner head →
      (s.put (c.owner head) (some (withChild key v (removeRoot (.node d l key value r)).ptr))).nodes a = s.nodes a :=
    fun a different => Function.update_of_ne different _ _
  refine shape.refill follows owner (Function.update_self _ _ _) (fun a _ different => other a different) ?_
    shape.remove_addrs.1 shape.remove_addrs.2 (ordered_remove shape.ordered) shape.remove_short
  simp only [addrs, List.mem_cons, List.mem_append, not_or] at notIn
  have kept : ∀ t : KeyTree, Stored s.nodes t → c.owner head ∉ t.addrs →
      Stored (s.put (c.owner head) (some (withChild key v (removeRoot (.node d l key value r)).ptr))).nodes t := by
    intro t stored fresh
    exact stored.congr fun a member => other a fun equal => fresh (equal ▸ member)
  rcases one with rfl | rfl
  · have same := removeRoot_noLeft d key value r
    have keptRight := kept r right notIn.2.2
    rw [same] at keptRight ⊢
    exact keptRight
  · exact kept l left notIn.2.1

/-- How much of the store `db_remove` writes: the parent when a child is missing, otherwise
`dnode` and the chain to its successor. -/
def UnlinkFrame (s s' : Store) (owner d : NodeId) (l r : KeyTree) : Prop :=
  ((l = .nil ∨ r = .nil) ∧ ∀ a, a ≠ owner → s'.nodes a = s.nodes a) ∨
    (l ≠ .nil ∧ r ≠ .nil ∧ ∀ a, a ≠ d → a ∉ r.chain → s'.nodes a = s.nodes a)

structure Unlinked (s s' : Store) (c : KeyCtx) (d : NodeId) (l : KeyTree) (key value : CString) (r : KeyTree)
    (victim : NodeId) : Prop where
  shape : Shape s' (c.plug (removeRoot (.node d l key value r)))
  isVictim : Tree.victim (.node d l key value r) = some victim
  kept : s'.nodes victim = s.nodes victim
  rest : SameRest s s' 0
  frame : UnlinkFrame s s' (c.owner head) d l r

theorem Shape.unlinked_one {v : Node} (shape : Shape s (c.plug (.node d l key value r))) (follows : c.Follows key)
    (owner : s.nodes (c.owner head) = some v) (one : l = .nil ∨ r = .nil) :
    Unlinked s (s.put (c.owner head) (some (withChild key v (removeRoot (.node d l key value r)).ptr))) c d l key value r d := by
  have notIn := shape.owner_notIn
  have different : d ≠ c.owner head := by
    intro equal
    exact notIn (equal ▸ List.mem_cons_self)
  refine ⟨shape.unlink_one follows owner one, ?_, Function.update_of_ne different _ _, ⟨rfl, rfl⟩,
    Or.inl ⟨one, fun a other => Function.update_of_ne other _ _⟩⟩
  cases r with
  | nil => rfl
  | node b rl rk rv rr =>
    obtain rfl : l = .nil := by simpa using one
    rfl

theorem mem_addrs_popMin {b : NodeId} {rk rv : CString} {rr rl : KeyTree} {a : NodeId} :
    a ∈ addrs (.node b rl rk rv rr) ↔ a = (popMin b rk rv rr rl).1 ∨ a ∈ (popMin b rk rv rr rl).2.2.2.addrs := by
  rw [(addrs_popMin b rk rv rr rl).mem_iff, List.mem_cons]

/-- The branch in which `dnode` has two children: it takes over the entry of its successor, which
is unlinked in its stead. -/
theorem Shape.unlinked_two {b e : NodeId} {rk rv : CString} {rl rr : KeyTree}
    (shape : Shape s (c.plug (.node d l key value (.node b rl rk rv rr)))) (follows : c.Follows key) (full : l ≠ .nil)
    (rest : SameRest s s' 0)
    (written : s'.nodes d = some ⟨(popMin b rk rv rr rl).2.1, (popMin b rk rv rr rl).2.2.1, l.ptr,
      (popMin b rk rv rr rl).2.2.2.ptr⟩)
    (stored : Stored s'.nodes (popMin b rk rv rr rl).2.2.2)
    (place : e = d ∨ e ∈ chain (.node b rl rk rv rr) ∧ e ≠ (popMin b rk rv rr rl).1)
    (same : ∀ a, a ≠ d → a ≠ e → s'.nodes a = s.nodes a) :
    Unlinked s s' c d l key value (.node b rl rk rv rr) (popMin b rk rv rr rl).1 := by
  obtain ⟨v, owner, child⟩ := shape.owner follows
  have apart := shape.right_apart
  have minInside : (popMin b rk rv rr rl).1 ∈ addrs (.node b rl rk rv rr) := chain_subset _ _ (popMin_mem_chain b rk rv rr rl)
  have outside : ∀ a, a ≠ d ∧ a ∉ addrs (.node b rl rk rv rr) → s'.nodes a = s.nodes a := by
    intro a away
    apply same a away.1
    intro equal
    rcases place with eRoot | ⟨eMem, _⟩
    · exact away.1 (equal.trans eRoot)
    · exact away.2 (equal ▸ chain_subset _ _ eMem)
  have split : (removeRoot (.node d l key value (.node b rl rk rv rr))) =
      .node d l (popMin b rk rv rr rl).2.1 (popMin b rk rv rr rl).2.2.1 (popMin b rk rv rr rl).2.2.2 := by
    cases l with
    | nil => exact (full rfl).elim
    | node => rfl
  refine ⟨?_, ?_, ?_, rest, Or.inr ⟨full, by simp, ?_⟩⟩
  · refine shape.refill follows owner ?_ ?_ ?_ shape.remove_addrs.1 ?_ (ordered_remove shape.ordered) shape.remove_short
    · rw [outside _ (apart.context _ (owner_context c)), owner, split]
      have back := withChild_childOf key v
      rw [child] at back
      exact congrArg some back.symm
    · intro a member _
      exact outside a (apart.context a member)
    · rw [split]
      obtain ⟨_, left, _⟩ := (stored_plug.mp shape.stored).2
      exact ⟨written, left.congr fun a member => outside a (apart.left a member), stored⟩
    · rw [rest.fresh]
      exact shape.remove_addrs.2
  · cases l with
    | nil => exact (full rfl).elim
    | node => rfl
  · apply same _ (apart.root _ minInside)
    intro equal
    rcases place with eRoot | ⟨_, eOther⟩
    · exact apart.root _ minInside (equal.trans eRoot)
    · exact eOther equal.symm
  · intro a different off
    apply same a different
    intro equal
    rcases place with eRoot | ⟨eMem, _⟩
    · exact different (equal.trans eRoot)
    · exact off (equal ▸ eMem)

/-- The field `slot` of `v` with `child` in it. -/
def withSlot (v : Node) (side : Side) (child : Option NodeId) : Node :=
  match side with
  | .left => { v with lchild := child }
  | .right => { v with rchild := child }

theorem traces_setSlot {slot : NodeId × Side} {child : Option NodeId} (found : s.nodes slot.1 = some v) :
    Traces (setSlot slot child) s () (s.put slot.1 (some (withSlot v slot.2 child))) [.write slot.1] := by
  obtain ⟨n, side⟩ := slot
  cases side with
  | left => exact traces_setNode found
  | right => exact traces_setNode found

/-- The statements of the third branch of `db_remove`, once its loop has stopped. -/
theorem traces_unlinkTwo {owner b next : NodeId} {slot : NodeId × Side} {root w x least : Node}
    (rootFound : s.nodes d = some root) (rootRight : root.rchild = some b) (rootLeft : root.lchild ≠ none)
    (walk : Traces (leftmost s.fresh b (d, .right)) s (next, slot) s trace)
    (nextFound : s.nodes next = some least) (keyShort : least.key.length < maxLen)
    (valueShort : least.value.length < maxLen) (slotFound : s.nodes slot.1 = some w)
    (nextThen : (s.put slot.1 (some (withSlot w slot.2 least.rchild))).nodes next = some least)
    (rootThen : (s.put slot.1 (some (withSlot w slot.2 least.rchild))).nodes d = some x) :
    Traces (unlinkNode owner d) s next
      (((s.put slot.1 (some (withSlot w slot.2 least.rchild))).put d (some { x with key := least.key })).put d
        (some { x with key := least.key, value := least.value }))
      (.read d :: .read d :: (trace ++
        [.read next, .write slot.1, .read next, .read next, .write d, .write d])) := by
  unfold unlinkNode
  apply (traces_node rootFound).cons
  rw [rootRight]
  apply (traces_node rootFound).cons
  rw [if_neg rootLeft]
  apply Traces.get
  apply walk.bind
  apply (traces_node nextFound).cons
  apply (traces_setSlot slotFound).cons
  apply (traces_node nextThen).cons
  apply (traces_node nextThen).cons
  simp only [snprintf_short keyShort, snprintf_short valueShort]
  apply (traces_setNode rootThen).cons
  exact (traces_setNode (Function.update_self _ _ _)).cons (Traces.pure _ _)

/-- What `unlinkNode` records: with a missing child only accesses of the two nodes that are locked,
otherwise also a read of the right child, and further accesses. -/
def UnlinkTrace (owner d : NodeId) (l r : KeyTree) (trace : List Op) : Prop :=
  ((l = .nil ∨ r = .nil) ∧ ∀ op ∈ trace, op = .read d ∨ op = .read owner ∨ op = .write owner) ∨
    (l ≠ .nil ∧ ∃ b rest, r.ptr = some b ∧ trace = .read d :: .read d :: .read b :: rest ∧
      ∀ op ∈ rest, ∃ n, op = .read n ∨ op = .write n)

theorem unlinkTrace_two {owner b next e : NodeId} {rk rv : CString} {rl rr : KeyTree} (full : l ≠ .nil) :
    UnlinkTrace owner d l (.node b rl rk rv rr) (.read d :: .read d :: ((chain (.node b rl rk rv rr)).map .read ++
      [.read next, .write e, .read next, .read next, .write d, .write d])) := by
  refine Or.inr ⟨full, b, _, rfl, rfl, ?_⟩
  intro op member
  rcases List.mem_append.mp member with walked | after
  · obtain ⟨n, _, rfl⟩ := List.mem_map.mp walked
    exact ⟨n, Or.inl rfl⟩
  · simp only [List.mem_cons, List.not_mem_nil, or_false] at after
    rcases after with rfl | rfl | rfl | rfl | rfl | rfl
    · exact ⟨next, Or.inl rfl⟩
    · exact ⟨e, Or.inr rfl⟩
    · exact ⟨next, Or.inl rfl⟩
    · exact ⟨next, Or.inl rfl⟩
    · exact ⟨d, Or.inr rfl⟩
    · exact ⟨d, Or.inr rfl⟩

theorem Shape.traces_unlinkNode (shape : Shape s (c.plug (.node d l key value r))) (follows : c.Follows key) :
    ∃ s' victim trace, Traces (unlinkNode (c.owner head) d) s victim s' trace ∧
      Unlinked s s' c d l key value r victim ∧ UnlinkTrace (c.owner head) d l r trace := by
  obtain ⟨v, owner, child⟩ := shape.owner follows
  obtain ⟨root, left, right⟩ := (stored_plug.mp shape.stored).2
  have readRoot : Traces (node d) s ⟨key, value, l.ptr, r.ptr⟩ s [.read d] := traces_node root
  cases r with
  | nil =>
    refine ⟨_, d, [.read d, .read d, .read d, .read (c.owner head), .write (c.owner head)], ?_,
      shape.unlinked_one follows owner (Or.inr rfl), Or.inl ⟨Or.inr rfl, by simp⟩⟩
    unfold unlinkNode
    apply readRoot.cons
    apply readRoot.cons
    apply readRoot.cons
    exact (traces_setChildFor owner).bind (Traces.pure _ _)
  | node b rl rk rv rr =>
    cases l with
    | nil =>
      refine ⟨_, d, [.read d, .read d, .read d, .read d, .read (c.owner head), .write (c.owner head)], ?_,
        shape.unlinked_one follows owner (Or.inl rfl), Or.inl ⟨Or.inl rfl, by simp⟩⟩
      unfold unlinkNode
      apply readRoot.cons
      apply readRoot.cons
      rw [if_pos (show ptr (.nil : KeyTree) = none from rfl)]
      apply readRoot.cons
      apply readRoot.cons
      exact (traces_setChildFor owner).bind (Traces.pure _ _)
    | node b' ll lk lv lr =>
      have distinct := (List.nodup_append.mp (List.nodup_cons.mp shape.ctx_distinct).2).2.1
      have parts := List.nodup_cons.mp distinct
      have rounds : rl.addrs.length < s.fresh := by
        have length := shape.length_lt_fresh
        rw [(Ctx.addrs_plug c _).length_eq] at length
        simp only [addrs, List.length_append, List.length_cons] at length
        omega
      obtain ⟨slot, after, walk, stop⟩ :=
        traces_leftmost rl b rk rv rr (d, .right) s.fresh right parts.2.of_append_right rounds
      have minInside : (popMin b rk rv rr rl).1 ∈ addrs (.node b rl rk rv rr) :=
        chain_subset _ _ (popMin_mem_chain b rk rv rr rl)
      have notRoot := shape.right_apart.root
      have short : (popMin b rk rv rr rl).2.1.length < maxLen ∧ (popMin b rk rv rr rl).2.2.1.length < maxLen := by
        apply shape.short ((popMin b rk rv rr rl).2.1, (popMin b rk rv rr rl).2.2.1)
        rw [Ctx.entries_plug, entries, entries_popMin b rk rv rr rl]
        simp
      have leftFull : ptr (.node b' ll lk lv lr : KeyTree) ≠ none := Option.some_ne_none _
      rcases stop.taken with ⟨rfl, restPtr, restStored⟩ | ⟨e, w, rfl, eMem, eOther, eFound, restPtr, writes⟩
      · -- The successor is the right child of `dnode`.
        refine ⟨_, _, _, traces_unlinkTwo root rfl leftFull walk stop.found short.1 short.2 root ?_
          (Function.update_self _ _ _), ?_, unlinkTrace_two (by simp)⟩
        · exact (Function.update_of_ne (notRoot _ minInside) _ _).trans stop.found
        · refine shape.unlinked_two (e := d) follows (by simp) ⟨rfl, rfl⟩ ?_ ?_ (Or.inl rfl) ?_
          · rw [← restPtr]
            exact Function.update_self _ _ _
          · refine restStored.congr fun a member => ?_
            have different := notRoot a (mem_addrs_popMin.mpr (Or.inr member))
            simp only [Store.put, Function.update_of_ne different]
          · intro a different _
            simp only [Store.put, Function.update_of_ne different]
      · have eInside := chain_subset _ _ eMem
        have eRoot := notRoot e eInside
        refine ⟨_, _, _, traces_unlinkTwo (x := ⟨key, value, some b', some b⟩) root rfl leftFull walk stop.found short.1
          short.2 eFound ?_ ?_, ?_, unlinkTrace_two (by simp)⟩
        · exact (Function.update_of_ne eOther.symm _ _).trans stop.found
        · exact (Function.update_of_ne eRoot.symm _ _).trans root
        · refine shape.unlinked_two (e := e) follows (by simp) ⟨rfl, rfl⟩ ?_ ?_ (Or.inr ⟨eMem, eOther⟩) ?_
          · rw [restPtr]
            exact Function.update_self _ _ _
          · apply writes
            · simp only [Store.put, Function.update_of_ne eRoot]
              exact Function.update_self _ _ _
            · intro a member different
              simp only [Store.put, Function.update_of_ne (notRoot a member), Function.update_of_ne different]
          · intro a different notSlot
            simp only [Store.put, Function.update_of_ne different, Function.update_of_ne notSlot]

theorem Shape.runs_unlinkNode (shape : Shape s (c.plug (.node d l key value r))) (follows : c.Follows key) :
    ∃ s' victim, (∀ ops, Runs (unlinkNode (c.owner head) d) (s.withOps ops) victim s') ∧
      Unlinked s s' c d l key value r victim := by
  obtain ⟨s', victim, _, run, done, _⟩ := shape.traces_unlinkNode follows
  exact ⟨s', victim, run.runs, done⟩

/-- The destroyed node is out of the tree, and nothing else is. -/
theorem Unlinked.addrs {victim : NodeId} (done : Unlinked s s' c d l key value r victim) :
    (head :: (c.plug (.node d l key value r)).addrs).Perm
      (victim :: head :: (c.plug (removeRoot (.node d l key value r))).addrs) := by
  obtain ⟨victim', isVictim, perm⟩ := addrs_plug_remove c d l key value r
  obtain rfl := Option.some.inj (isVictim.symm.trans done.isVictim)
  exact perm

theorem Unlinked.victim_notIn {victim : NodeId} (done : Unlinked s s' c d l key value r victim)
    (shape : Shape s (c.plug (.node d l key value r))) :
    victim ∉ head :: (c.plug (removeRoot (.node d l key value r))).addrs :=
  (List.nodup_cons.mp (done.addrs.nodup_iff.mp shape.distinct)).1

/-- Every node of the old tree is still there until the victim is destroyed. -/
theorem Unlinked.present {victim a : NodeId} (done : Unlinked s s' c d l key value r victim)
    (shape : Shape s (c.plug (.node d l key value r))) (member : a ∈ head :: (c.plug (.node d l key value r)).addrs) :
    ∃ v, s'.nodes a = some v := by
  rcases List.mem_cons.mp (done.addrs.mem_iff.mp member) with rfl | member
  · rw [done.kept]
    have old := done.addrs.mem_iff.mpr List.mem_cons_self
    rcases List.mem_cons.mp old with equal | inTree
    · rw [equal]
      exact ⟨_, shape.root⟩
    · exact shape.stored.mem inTree
  · rcases List.mem_cons.mp member with rfl | inTree
    · exact ⟨_, done.shape.root⟩
    · exact done.shape.stored.mem inTree

end

end Cs1330.Db
