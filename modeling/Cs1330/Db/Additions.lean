import Cs1330.Db.TreeCalls

/-!
# Additions

`db_add` with keys and values of any length and any outcomes of `malloc`. It returns 1 whenever the
key was absent, also when `node_constructor` made no node, and a key or value of exactly `MAXLEN`
bytes is stored without its last byte.
-/

namespace Cs1330.Db
open SearchTree SearchTree.Tree

/-- The three things that `db_add` can do, with the result and the store that it leaves. -/
inductive Addition (s : Store) (key value : CString) : KeyTree → Int → Store → Prop
  | present {c : KeyCtx} {a l w r} : c.Follows key → Addition s key value (c.plug (.node a l key w r)) 0 s
  | refused {c : KeyCtx} (count : Nat) : c.Follows key → ¬(key.length ≤ maxLen ∧ value.length ≤ maxLen ∧ Granted s) →
      Addition s key value (c.plug .nil) 1 (s.spend count)
  | made {c : KeyCtx} {s' : Store} : c.Follows key → key.length ≤ maxLen → value.length ≤ maxLen → Granted s →
      Rooted s' (c.plug (.node s.fresh .nil (snprintf maxLen key) (snprintf maxLen value) .nil)) →
      s'.fresh = s.fresh + 1 → s'.mallocs = s.mallocs.drop 3 → Addition s key value (c.plug .nil) 1 s'

variable {s s' : Store} {t : KeyTree} {key value : CString} {c : KeyCtx}

/-- What `db_add` does with the locks, given the parent and the tree where its search stopped. -/
def addEnd (parent : NodeId) : KeyTree → List Op
  | .nil => [.read parent, .write parent, .unlock parent]
  | .node a _ _ _ _ => [.unlock parent, .unlock a]

theorem Shape.traces_dbAdd (shape : Shape s t) (key value : CString) :
    ∃ result s' c t' way, Addition s key value t result s' ∧ Descent key true .write .top t c t' way ∧
      Traces (dbAdd key value) s result s' (.lock .write head :: (way ++ addEnd (c.owner head) t')) := by
  obtain ⟨c, t', way, descent, rfl, follows, stop, run⟩ := shape.traces_searchFrom key true .write
  obtain ⟨v, owner, _⟩ := shape.owner follows
  rcases stop with rfl | ⟨a, l, w, r, rfl⟩
  · have finish : ∀ {s' : Store} {w : Node}, s'.nodes (c.owner head) = some w →
        Traces (addUnder key value (c.owner head)) s () s' [.read (c.owner head), .write (c.owner head)] →
        Traces (dbAdd key value) s 1 s' (.lock .write head :: (way ++ addEnd (c.owner head) .nil)) := by
      intro s' w ownerThen add
      unfold dbAdd
      apply (traces_rwlock shape.root).cons
      apply run.bind
      apply add.bind
      exact (traces_unlock ownerThen).cons (Traces.pure _ _)
    by_cases granted : key.length ≤ maxLen ∧ value.length ≤ maxLen ∧ Granted s
    · obtain ⟨keyFits, valueFits, granted⟩ := granted
      obtain ⟨s', add, rooted, fresh, mallocs, _⟩ := shape.traces_addUnder_made follows granted keyFits valueFits
      obtain ⟨_, ownerThen, _⟩ := rooted.owner follows
      exact ⟨1, s', c, .nil, way, .made follows keyFits valueFits granted rooted fresh mallocs, descent,
        finish ownerThen add⟩
    · obtain ⟨count, add⟩ := shape.traces_addUnder_refused follows granted
      exact ⟨1, s.spend count, c, .nil, way, .refused count follows granted, descent, finish owner add⟩
  · have root := (stored_plug.mp shape.stored).2.1
    refine ⟨0, s, c, _, way, .present follows, descent, ?_⟩
    unfold dbAdd
    apply (traces_rwlock shape.root).cons
    apply run.bind
    apply (traces_unlock owner).cons
    exact (traces_unlock root).cons (Traces.pure _ _)

theorem lookup_present {a : NodeId} {l r : KeyTree} {w : CString} (follows : c.Follows key) :
    (c.plug (.node a l key w r)).lookup key = some w := by
  rw [Ctx.lookup_plug follows, lookup, if_neg (lt_irrefl key), if_pos rfl]

theorem lookup_absent (follows : c.Follows key) : (c.plug .nil).lookup key = none := Ctx.lookup_plug follows .nil

/-- Strings that fit their buffers leave a search tree, with or without the new binding. -/
theorem Addition.shape {result : Int} (addition : Addition s key value t result s') (shape : Shape s t)
    (keyShort : key.length < maxLen) (valueShort : value.length < maxLen) :
    (result = if t.lookup key = none then 1 else 0) ∧ (∃ count, s'.mallocs = s.mallocs.drop count) ∧
      ∃ t', Shape s' t' ∧
        ∀ k, t'.lookup k = if (t.lookup key = none ∧ Granted s) ∧ k = key then some value else t.lookup k := by
  cases addition with
  | @present c a l w r follows =>
    have there : (c.plug (.node a l key w r)).lookup key = some w := lookup_present follows
    refine ⟨by simp [there], ⟨0, rfl⟩, _, shape, fun k => ?_⟩
    simp [there]
  | @refused c count follows refused =>
    have absent := lookup_absent follows
    have unsettled : ¬Granted s := fun granted => refused ⟨Nat.le_of_lt keyShort, Nat.le_of_lt valueShort, granted⟩
    refine ⟨by simp [absent], ⟨count, rfl⟩, _, ⟨shape.root, shape.stored, shape.distinct, shape.bound, shape.ordered,
      shape.short⟩, fun k => ?_⟩
    simp [unsettled]
  | @made c _ follows keyFits valueFits granted rooted fresh mallocs =>
    have absent := lookup_absent follows
    refine ⟨by simp [absent], ⟨3, mallocs⟩, _, rooted.shape_insert shape follows keyShort valueShort fresh, fun k => ?_⟩
    rw [lookup_insert shape.ordered follows]
    simp [absent, granted]

/-! ### What a search finds -/

/-- A search for the key finds a node that holds the value. -/
def Bound (s : Store) (key value : CString) : Prop :=
  ∃ n parent s' v, searchFrom key false .read head s = .ok ((some n, parent), s') ∧ s.nodes n = some v ∧ v.key = key ∧
    v.value = value

theorem Rooted.bound_iff (rooted : Rooted s t) (bound : t.addrs.length < s.fresh) :
    Bound s key value ↔ t.lookup key = some value := by
  obtain ⟨c, t', way, _, rfl, follows, stop, run⟩ := rooted.traces_searchFrom bound key false .read
  obtain ⟨ops, ran⟩ := run.runs s.ops
  change searchFrom key false .read head s = .ok ((t'.ptr, c.owner head), s.withOps ops) at ran
  have stored := (stored_plug.mp rooted.stored).2
  rcases stop with rfl | ⟨a, l, w, r, rfl⟩
  · rw [lookup_absent follows]
    constructor
    · intro bound
      obtain ⟨n, parent, s', v, found, _⟩ := bound
      cases ran.symm.trans found
    · intro impossible
      cases impossible
  · rw [lookup_present follows, Option.some.injEq]
    constructor
    · intro bound
      obtain ⟨n, parent, s', v, found, isNode, _, isValue⟩ := bound
      obtain ⟨same, _⟩ := Prod.mk.inj (Except.ok.inj (ran.symm.trans found))
      obtain rfl := Option.some.inj (Prod.mk.inj same).1
      obtain rfl := Option.some.inj (stored.1.symm.trans isNode)
      exact isValue
    · rintro rfl
      exact ⟨a, c.owner head, s.withOps ops, _, ran, stored.1, rfl, rfl⟩

/-! ### All or nothing -/

/-- The key is bound to the value, and the tree is otherwise as it was: ordered, with each key once
and the other bindings. -/
structure Stores (s' : Store) (t : KeyTree) (key value : CString) : Prop where
  bound : Bound s' key value
  kept : ∃ t', Shape s' t' ∧ ∀ k, k ≠ key → t'.lookup k = t.lookup k

/-- `db_add` succeeds with 1, or returns 0 and has changed nothing. -/
structure AllOrNothing (s : Store) (t : KeyTree) (key value : CString) (result : Int) (s' : Store) : Prop where
  binary : result = 0 ∨ result = 1
  success : result = 1 ↔ t.lookup key = none ∧ Stores s' t key value
  failure : result = 0 → s'.nodes = s.nodes

theorem snprintf_lt (text : CString) : (snprintf maxLen text).length < maxLen := by
  have := List.length_take_le (maxLen - 1) text
  simp only [snprintf, maxLen] at this ⊢
  omega

theorem Rooted.withOps (rooted : Rooted s t) (ops : List Op) : Rooted (s.withOps ops) t := ⟨rooted.root, rooted.stored⟩

theorem Addition.allOrNothing_iff {result : Int} (shape : Shape s t) (addition : Addition s key value t result s')
    (ops : List Op) :
    AllOrNothing s t key value result (s'.withOps ops) ↔
      t.lookup key ≠ none ∨ key.length < maxLen ∧ value.length < maxLen ∧ Granted s := by
  cases addition with
  | @present c a l w r follows =>
    have there : (c.plug (.node a l key w r)).lookup key = some w := lookup_present follows
    refine ⟨fun _ => .inl (by simp [there]), fun _ => ⟨.inl rfl, ⟨?_, ?_⟩, fun _ => rfl⟩⟩
    · intro impossible
      cases impossible
    · intro stored
      cases there.symm.trans stored.1
  | @refused c count follows refused =>
    have absent := lookup_absent follows
    have length : (c.plug .nil).addrs.length < s.fresh := shape.length_lt_fresh
    constructor
    · intro all
      have unbound := (all.success.mp rfl).2.bound
      have rooted : Rooted ((s.spend count).withOps ops) (c.plug .nil) := ⟨shape.root, shape.stored⟩
      rw [rooted.bound_iff length, absent] at unbound
      cases unbound
    · intro meets
      rcases meets with present | ⟨keyShort, valueShort, granted⟩
      · exact absurd absent present
      · exact absurd ⟨Nat.le_of_lt keyShort, Nat.le_of_lt valueShort, granted⟩ refused
  | @made c _ follows keyFits valueFits granted rooted fresh _ =>
    have absent := lookup_absent follows
    obtain ⟨distinct, bound⟩ := shape.insert_addrs (snprintf maxLen key) (snprintf maxLen value)
    rw [← fresh] at bound
    have short := shape.insert_short (a := s.fresh) (snprintf_lt key) (snprintf_lt value)
    have found : Bound (s'.withOps ops) key value ↔ _ := (rooted.withOps ops).bound_iff (length_lt_of_bound distinct bound)
    constructor
    · intro all
      have entry := mem_entries_of_lookup (found.mp (all.success.mp rfl).2.bound)
      exact .inr ⟨(short _ entry).1, (short _ entry).2, granted⟩
    · intro meets
      rcases meets with present | ⟨keyShort, valueShort, _⟩
      · exact absurd absent present
      · have shape' := rooted.shape_insert shape follows keyShort valueShort fresh
        rw [snprintf_short keyShort, snprintf_short valueShort] at found
        have lookups := lookup_insert (a := s.fresh) (v := value) shape.ordered follows
        refine ⟨.inr rfl, ⟨fun _ => ⟨absent, found.mpr ?_, _, shape'.withOps ops, ?_⟩, fun _ => rfl⟩, ?_⟩
        · rw [lookups, if_pos rfl]
        · intro k different
          rw [lookups, if_neg different]
        · intro impossible
          cases impossible

/-- `db_add` is all or nothing if the key is there already, or if both strings are shorter than
`MAXLEN` and there is memory for the node; otherwise it is not. -/
theorem dbAdd_allOrNothing_iff (shape : Shape s t) (key value : CString) :
    ∃ result s', dbAdd key value s = .ok (result, s') ∧
      (AllOrNothing s t key value result s' ↔
        t.lookup key ≠ none ∨ key.length < maxLen ∧ value.length < maxLen ∧ Granted s) := by
  obtain ⟨result, s', _, _, _, addition, _, run⟩ := shape.traces_dbAdd key value
  obtain ⟨ops, ran⟩ := run.runs s.ops
  exact ⟨result, s'.withOps ops, ran, addition.allOrNothing_iff shape ops⟩

theorem dbAdd_allOrNothing_innerKeys : ∃ result s', dbAdd (text "p") (text "4") innerKeys = .ok (result, s') ∧
    AllOrNothing innerKeys innerTree (text "p") (text "4") result s' := by
  obtain ⟨result, s', run, holds⟩ := dbAdd_allOrNothing_iff shape_innerKeys (text "p") (text "4")
  exact ⟨result, s', run, holds.mpr (.inr (by decide))⟩

/-- An absent key that cannot be stored as it is: the result is 1 all the same. -/
theorem Shape.dbAdd_misses (shape : Shape s t) (absent : t.lookup key = none)
    (missed : ¬(key.length < maxLen ∧ value.length < maxLen ∧ Granted s)) :
    ∃ s', dbAdd key value s = .ok (1, s') ∧ ¬AllOrNothing s t key value 1 s' := by
  obtain ⟨result, s', _, _, _, addition, _, run⟩ := shape.traces_dbAdd key value
  obtain ⟨ops, ran⟩ := run.runs s.ops
  have one : result = 1 := by
    cases addition with
    | present follows => cases (lookup_present follows).symm.trans absent
    | refused count follows refused => rfl
    | made follows keyFits valueFits granted rooted fresh mallocs => rfl
  subst one
  refine ⟨s'.withOps ops, ran, ?_⟩
  rw [addition.allOrNothing_iff shape ops]
  intro meets
  rcases meets with present | stored
  · exact present absent
  · exact missed stored

/-- Without memory, and with a key of 256 bytes, nothing can be found under the key. -/
theorem added_without_node :
    (∃ s', dbAdd (text "k") (text "v") { Store.empty with mallocs := [false] } = .ok (1, s') ∧
      ¬AllOrNothing { Store.empty with mallocs := [false] } .nil (text "k") (text "v") 1 s') ∧
    ∃ s', dbAdd (List.replicate 256 (byte 'k')) (text "v") Store.empty = .ok (1, s') ∧
      ¬AllOrNothing Store.empty .nil (List.replicate 256 (byte 'k')) (text "v") 1 s' := by
  constructor
  · have shape : Shape { Store.empty with mallocs := [false] } .nil :=
      ⟨rfl, trivial, shape_empty.distinct, shape_empty.bound, trivial, shape_empty.short⟩
    exact shape.dbAdd_misses rfl (by decide)
  · apply shape_empty.dbAdd_misses rfl
    rintro ⟨keyShort, _⟩
    rw [List.length_replicate] at keyShort
    exact absurd keyShort (by decide)

end Cs1330.Db
