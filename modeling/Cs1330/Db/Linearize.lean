import Cs1330.Lib.Linearizable
import Cs1330.Db.Commands
import Cs1330.Db.Interleaving

/-!
# The threads share a finite map

The interleaved calls refine the atomic map: each has one step, between its invocation and its
return, in which it does to the tree what the call does to the map. A search takes that step when
it finds the key or where it is missing.
-/

namespace Cs1330.Db
open SearchTree SearchTree.Tree Linearizable

/-! ### The map -/

def perform (m : Bindings) : Call → Result × Bindings
  | .query key =>
    match m key with
    | some value => (.value value, m)
    | none => (.notFound, m)
  | .add key value => if m key = none then (.status 1, Function.update m key (some value)) else (.status 0, m)
  | .remove key => if m key = none then (.status 0, m) else (.status 1, Function.update m key none)

def mapOf (tree : KeyTree) : Bindings := fun key => tree.lookup key

/-- The result of a call that has done its work. `db_query` still has the node locked that it will
read the value from. -/
def Activity.answer (nodes : NodeId → Option Node) (act : Activity) : Option Result :=
  match act.pc with
  | .hit _ target => (nodes target).map fun v => .value v.value
  | .reading target => (nodes target).map fun v => .value v.value
  | .finish _ _ result => some result
  | _ => none

def Event.seen : Event → Linearizable.Event Call Result
  | .invoked t call => .invoked t call
  | .returned t call start result => .returned t call start result

/-- The threads with the tree that they share show the same as the atomic map. -/
structure Refines (s : System) (tree : KeyTree) (a : Atomic Bindings Call Result) : Prop where
  state : a.state = mapOf tree
  calls : a.calls = fun t => (s.threads t).map fun act => ⟨act.call, act.start, act.answer s.store.nodes⟩
  history : a.history = s.log.map Event.seen

variable {s s' : System} {tree tree' : KeyTree} {t : Nat} {act : Activity} {pc : Pc} {n : NodeId} {mode : Mode}
  {a : Atomic Bindings Call Result}

theorem refines_initial : Refines System.initial .nil (Atomic.initial fun _ => none) := ⟨rfl, rfl, rfl⟩

/-! ### What a step of a thread does to the map -/

/-- How a call leaves the tree. -/
inductive Change : KeyTree → Call → KeyTree → Prop
  | none (tree : KeyTree) (call : Call) : Change tree call tree
  | insert (c : KeyCtx) (a : NodeId) (key value : CString) :
      Change (c.plug .nil) (.add key value) (c.plug (.node a .nil key value .nil))
  | remove (c : KeyCtx) (d : NodeId) (l : KeyTree) (key value : CString) (r : KeyTree) :
      Change (c.plug (.node d l key value r)) (.remove key) (c.plug (removeRoot (.node d l key value r)))

/-- Where a step within a call leads. -/
inductive Pc.Next : Pc → Pc → Prop
  | start : Next .start (.visit head)
  | visit (p next : NodeId) : Next (.visit p) (.wait p next)
  | missing (p : NodeId) (result : Result) : Next (.visit p) (.finish [p] none result)
  | wait (p next : NodeId) : Next (.wait p next) (.compare p next)
  | other (p next : NodeId) : Next (.compare p next) (.descend p next)
  | found (p next : NodeId) : Next (.compare p next) (.hit p next)
  | done (p next : NodeId) (victim : Option NodeId) (result : Result) :
      Next (.compare p next) (.finish [p, next] victim result)
  | descend (p next : NodeId) : Next (.descend p next) (.visit next)
  | hit (p target : NodeId) : Next (.hit p target) (.reading target)
  | reading (target : NodeId) (result : Result) : Next (.reading target) (.finish [target] none result)
  | unlock (n : NodeId) (unlocks : List NodeId) (victim : Option NodeId) (result : Result) :
      Next (.finish (n :: unlocks) victim result) (.finish unlocks victim result)

inductive Effect (s s' : System) (tree tree' : KeyTree) (t : Nat) (act : Activity) : Prop
  | moves (pc : Pc) : s'.threads = Function.update s.threads t (some { act with pc := pc }) → s'.log = s.log →
      act.pc.Next pc → tree' = tree → Activity.answer s'.store.nodes { act with pc := pc } = act.answer s.store.nodes →
      Effect s s' tree tree' t act
  | performs (pc : Pc) : s'.threads = Function.update s.threads t (some { act with pc := pc }) → s'.log = s.log →
      act.pc.Next pc → Change tree act.call tree' → act.answer s.store.nodes = none →
      Activity.answer s'.store.nodes { act with pc := pc } = some (perform (mapOf tree) act.call).1 →
      mapOf tree' = (perform (mapOf tree) act.call).2 → Effect s s' tree tree' t act
  | returns (result : Result) : s'.threads = Function.update s.threads t none →
      s'.log = s.log ++ [.returned t act.call act.start result] → tree' = tree →
      act.answer s.store.nodes = some result → Effect s s' tree tree' t act

/-- A step of thread `t`, which leaves the answers of the others as they are. -/
structure Progress (s s' : System) (tree tree' : KeyTree) (t : Nat) (act : Activity) : Prop where
  shape : Shape s'.store tree'
  effect : Effect s s' tree tree' t act
  others : ∀ u other, u ≠ t → s.threads u = some other → other.answer s'.store.nodes = other.answer s.store.nodes
  /-- What is allocated after the step is in the tree, or `t` destroys it, or that was not so before. -/
  allocated : ∀ n, s'.store.nodes n ≠ none → n ∈ head :: tree'.addrs ∨
    (∃ act', s'.threads t = some act' ∧ act'.pc.victim = some n) ∨
      s.store.nodes n ≠ none ∧ n ∉ head :: tree.addrs ∧ act.pc.victim ≠ some n

theorem Effect.elsewhere {u : Nat} (effect : Effect s s' tree tree' t act) (here : u ≠ t) : s'.threads u = s.threads u := by
  cases effect with
  | moves pc threads => rw [threads, Function.update_of_ne here]
  | performs pc threads => rw [threads, Function.update_of_ne here]
  | returns result threads => rw [threads, Function.update_of_ne here]

theorem answer_congr {nodes nodes' : NodeId → Option Node} (same : ∀ n ∈ act.pc.held, nodes' n = nodes n) :
    act.answer nodes' = act.answer nodes := by
  obtain ⟨call, start, pc⟩ := act
  cases pc with
  | hit p target => exact congrArg (Option.map fun v => Result.value v.value) (same target (by simp [Pc.held]))
  | reading target => exact congrArg (Option.map fun v => Result.value v.value) (same target (by simp [Pc.held]))
  | _ => rfl

theorem Refines.progress (refines : Refines s tree a) (running : s.threads t = some act)
    (progress : Progress s s' tree tree' t act) : ∃ a', Refines s' tree' a' ∧ Relation.ReflTransGen (Atomic.Step perform) a a' := by
  obtain ⟨shape, effect, others, _⟩ := progress
  have calls : ∀ next, s'.threads = Function.update s.threads t next →
      (fun u => (s'.threads u).map fun act => (⟨act.call, act.start, act.answer s'.store.nodes⟩ : Pending Call Result)) =
        Function.update a.calls t (next.map fun act => ⟨act.call, act.start, act.answer s'.store.nodes⟩) := by
    intro next threads
    funext u
    rw [threads, refines.calls]
    by_cases here : u = t
    · subst here
      simp only [Function.update_self]
    · simp only [Function.update_of_ne here]
      cases found : s.threads u with
      | none => rfl
      | some other => rw [Option.map_some, Option.map_some, others u other here found]
  have pending : a.calls t = some ⟨act.call, act.start, act.answer s.store.nodes⟩ := by
    rw [refines.calls]
    simp only [running, Option.map_some]
  cases effect with
  | moves pc threads log _ same answer =>
    subst same
    refine ⟨a, ⟨refines.state, ?_, refines.history.trans (by rw [log])⟩, .refl⟩
    rw [calls _ threads, Option.map_some, answer]
    exact (Function.update_eq_self_iff.mpr pending.symm).symm
  | performs pc threads log _ _ undecided answer lookup =>
    rw [undecided] at pending
    have step : Atomic.Step perform a _ := .perform t act.call act.start pending
    refine ⟨_, ⟨?_, ?_, ?_⟩, .single step⟩
    · rw [refines.state, lookup]
    · rw [calls _ threads, Option.map_some, answer, refines.state]
    · rw [log, refines.history]
  | returns result threads log same answer =>
    subst same
    rw [answer] at pending
    have step : Atomic.Step perform a _ := .returns t act.call act.start result pending
    refine ⟨_, ⟨?_, ?_, ?_⟩, .single step⟩
    · exact refines.state
    · rw [calls _ threads]
      rfl
    · rw [log, List.map_append, refines.history]
      rfl

theorem Invariant.progress_quiet {ops : List Op} (invariant : Invariant s tree) (store : s'.store = s.store.withOps ops)
    (effect : Effect s s' tree tree t act)
    (victim : ∀ v, act.pc.victim = some v → ∃ act', s'.threads t = some act' ∧ act'.pc.victim = some v) :
    Progress s s' tree tree t act := by
  refine ⟨?_, effect, ?_, ?_⟩
  · rw [store]
    exact invariant.positions.shape.withOps ops
  · intro u other _ _
    rw [store]
    rfl
  · intro n present
    rw [store] at present
    by_cases member : n ∈ head :: tree.addrs
    · exact Or.inl member
    · by_cases isVictim : act.pc.victim = some n
      · exact Or.inr (Or.inl (victim n isVictim))
      · exact Or.inr (Or.inr ⟨present, member, isVictim⟩)

theorem System.lock_quiet {v : Node} (found : s.store.nodes n = some v) (run : s.lock t act mode n pc = .ok (some s')) :
    ∃ ops, s'.store = s.store.withOps ops ∧ s'.threads = Function.update s.threads t (some { act with pc := pc }) ∧
      s'.log = s.log := by
  have taken : Runs (rwlock mode n) s.store () s.store := runs_rwlock found
  obtain ⟨ops, ran⟩ := taken.system
  rw [System.lock, ran] at run
  change (if System.CanLock { s with store := s.store.withOps ops } mode n then _ else _) = _ at run
  split at run
  · cases run
    exact ⟨ops, rfl, rfl, rfl⟩
  · cases run

theorem System.unlock_quiet {v : Node} (found : s.store.nodes n = some v) (run : s.unlock t act n pc = .ok (some s')) :
    ∃ ops, s'.store = s.store.withOps ops ∧ s'.threads = Function.update s.threads t (some { act with pc := pc }) ∧
      s'.log = s.log := by
  obtain ⟨ops, ran⟩ := (runs_unlock found).system
  rw [System.unlock, ran] at run
  cases run
  exact ⟨ops, rfl, rfl, rfl⟩

section
variable {call : Call} {start : Nat} {p next : NodeId} {key value : CString}

/-- The steps that take a lock. -/
theorem Invariant.progress_lock (invariant : Invariant s tree) (inTree : n ∈ head :: tree.addrs)
    (run : s.lock t act mode n pc = .ok (some s')) (next : act.pc.Next pc) (victim : act.pc.victim = none)
    (undecided : act.answer s.store.nodes = none) (later : ∀ nodes, Activity.answer nodes { act with pc := pc } = none) : Progress s s' tree tree t act := by
  obtain ⟨v, found⟩ := invariant.positions.shape.present inTree
  obtain ⟨ops, store, threads, log⟩ := System.lock_quiet found run
  refine invariant.progress_quiet store (.moves pc threads log next rfl ((later _).trans undecided.symm)) ?_
  rw [victim]
  rintro v ⟨⟩

theorem Invariant.progress_unlock (invariant : Invariant s tree) (running : s.threads t = some act) (locked : n ∈ act.pc.held)
    (run : s.unlock t act n pc = .ok (some s')) (next : act.pc.Next pc) (victim : pc.victim = act.pc.victim)
    (same : ∀ nodes, Activity.answer nodes { act with pc := pc } = act.answer nodes) : Progress s s' tree tree t act := by
  obtain ⟨⟨v, found⟩, _⟩ := invariant.positions.held running locked
  obtain ⟨ops, store, threads, log⟩ := System.unlock_quiet found run
  refine invariant.progress_quiet store (.moves pc threads log next rfl ?_) ?_
  · rw [store]
    exact same _
  · intro v isVictim
    exact ⟨_, by rw [threads, Function.update_self], by rw [← isVictim, ← victim]⟩

theorem perform_query_absent {m : Bindings} (absent : m key = none) : perform m (.query key) = (.notFound, m) := by
  rw [perform, absent]

theorem perform_query_present {m : Bindings} (present : m key = some value) : perform m (.query key) = (.value value, m) := by
  rw [perform, present]

theorem perform_add_absent {m : Bindings} (absent : m key = none) :
    perform m (.add key value) = (.status 1, Function.update m key (some value)) := if_pos absent

theorem perform_add_present {m : Bindings} {old : CString} (present : m key = some old) :
    perform m (.add key value) = (.status 0, m) := if_neg (by rw [present]; exact Option.some_ne_none _)

theorem perform_remove_absent {m : Bindings} (absent : m key = none) : perform m (.remove key) = (.status 0, m) := if_pos absent

theorem perform_remove_present {m : Bindings} {old : CString} (present : m key = some old) :
    perform m (.remove key) = (.status 1, Function.update m key none) := if_neg (by rw [present]; exact Option.some_ne_none _)

theorem Invariant.progress_add {c : KeyCtx} (invariant : Invariant s (c.plug .nil))
    (running : s.threads t = some ⟨.add key value, start, .visit (c.owner head)⟩) (follows : c.Follows key)
    (runs : Runs (childFor key (c.owner head)) s.store none s.store) (run : s.advance t = .ok (some s')) :
    Progress s s' (c.plug .nil) (c.plug (.node s.store.fresh .nil key value .nil)) t
      ⟨.add key value, start, .visit (c.owner head)⟩ := by
  obtain ⟨keyShort, valueShort⟩ : key.length < maxLen ∧ value.length < maxLen := invariant.positions.short t _ running
  have shape := invariant.positions.shape
  obtain ⟨ops, ran⟩ := runs.system
  obtain ⟨store, add, shape', rest, frame⟩ :=
    shape.runs_addUnder follows invariant.positions.succeeds keyShort valueShort
  obtain ⟨ops', ran'⟩ := Runs.system (s := { s with store := s.store.withOps ops }) (add ops)
  simp only [System.advance, running, Call.key] at run
  rw [ran] at run
  change (System.run _ _ >>= _) = _ at run
  rw [ran'] at run
  cases run
  have absent : mapOf (c.plug .nil) key = none := Ctx.lookup_plug follows .nil
  refine ⟨shape'.withOps ops', .performs _ rfl rfl (.missing _ _) (.insert c _ key value) rfl ?_ ?_, ?_, ?_⟩
  · rw [perform_add_absent absent]
    rfl
  · rw [perform_add_absent absent]
    funext k
    rw [mapOf, lookup_insert shape.ordered follows]
    by_cases same : k = key
    · simp [same]
    · simp [same, mapOf]
  · intro u other here found
    apply answer_congr
    intro n held
    apply frame n
    · rintro rfl
      exact invariant.exclusion.alone running rfl List.mem_cons_self found here held
    · exact ne_of_lt (invariant.positions.held found held).2
  · intro n present
    by_cases member : n ∈ head :: (c.plug (.node s.store.fresh .nil key value .nil)).addrs
    · exact Or.inl member
    · refine Or.inr (Or.inr ⟨?_, fun old => member ?_, fun isVictim => by cases isVictim⟩)
      · have notOwner : n ≠ c.owner head := fun same => member (same ▸ owner_member c _)
        have notNew : n ≠ s.store.fresh := fun same => member (List.mem_cons_of_mem _ (same ▸ root_member c _ _ _ _ _))
        exact frame n notOwner notNew ▸ present
      · rcases List.mem_cons.mp old with rfl | inTree
        · exact List.mem_cons_self
        · rcases Ctx.mem_addrs_plug.mp inTree with inCtx | inNil
          · exact List.mem_cons_of_mem _ (Ctx.mem_addrs_plug.mpr (Or.inl inCtx))
          · cases inNil

theorem Invariant.progress_remove {c : KeyCtx} {d : NodeId} {l r : KeyTree}
    (invariant : Invariant s (c.plug (.node d l key value r)))
    (running : s.threads t = some ⟨.remove key, start, .compare (c.owner head) d⟩) (follows : c.Follows key)
    (clear : ClearFor s t) (run : s.advance t = .ok (some s')) :
    Progress s s' (c.plug (.node d l key value r)) (c.plug (removeRoot (.node d l key value r))) t
      ⟨.remove key, start, .compare (c.owner head) d⟩ := by
  have shape := invariant.positions.shape
  have root := (stored_plug.mp shape.stored).2.1
  obtain ⟨ops, ran⟩ := (runs_node root).system
  obtain ⟨store, victim, unlink, done⟩ := shape.runs_unlinkNode follows
  obtain ⟨ops', ran'⟩ := Runs.system (s := { s with store := s.store.withOps ops }) (unlink ops)
  simp only [System.advance, running, Call.key] at run
  rw [ran] at run
  change (if strcmp key key ≠ 0 then _ else _) = _ at run
  rw [if_neg (by simp [strcmp_eq_zero])] at run
  change (System.run _ _ >>= _) = _ at run
  rw [ran'] at run
  cases run
  have present : mapOf (c.plug (.node d l key value r)) key = some value := lookup_present follows
  refine ⟨done.shape.withOps ops', .performs _ rfl rfl (.done _ _ _ _) (.remove c d l key value r) rfl ?_ ?_, ?_, ?_⟩
  · rw [perform_remove_present present]
    rfl
  · rw [perform_remove_present present]
    funext k
    rw [mapOf, lookup_remove shape.ordered]
    by_cases same : k = key
    · simp [same]
    · simp [same, mapOf]
  · intro u other here found
    apply answer_congr
    intro n held
    exact done.same (invariant.apart running clear here found held)
  · intro n present
    by_cases old : n ∈ head :: (c.plug (.node d l key value r)).addrs
    · rcases List.mem_cons.mp (done.addrs.mem_iff.mp old) with rfl | kept
      · exact Or.inr (Or.inl ⟨_, goto_self _ _ _ _, rfl⟩)
      · exact Or.inl kept
    · refine Or.inr (Or.inr ⟨?_, old, fun isVictim => by cases isVictim⟩)
      have apart : Apart (c.owner head) d l r n := by
        refine ⟨fun same => old (same ▸ owner_member c _), ?_, ?_⟩
        · exact fun same => old (List.mem_cons_of_mem _ (same ▸ root_member c d l key value r))
        · intro _ _ inChain
          refine old (List.mem_cons_of_mem _ (Ctx.mem_addrs_plug.mpr (Or.inr ?_)))
          exact List.mem_cons_of_mem _ (List.mem_append_right _ (chain_subset _ _ inChain))
      exact done.same apart ▸ present

theorem Invariant.progress_visit (invariant : Invariant s tree) (running : s.threads t = some ⟨call, start, .visit p⟩)
    (run : s.advance t = .ok (some s')) : ∃ tree', Progress s s' tree tree' t ⟨call, start, .visit p⟩ := by
  have shape := invariant.positions.shape
  have onWay : OnWay s.store.nodes tree call.key p := invariant.positions.placed t _ running
  obtain ⟨c, below, rfl, follows, rfl⟩ := onWay.hole shape
  obtain ⟨v, owner, child⟩ := shape.owner follows
  have runs : Runs (childFor call.key (c.owner head)) s.store below.ptr s.store := by
    rw [← child]
    exact runs_childFor owner
  obtain ⟨ops, ran⟩ := runs.system
  cases below with
  | node a l k value r =>
    simp only [System.advance, running] at run
    rw [ran] at run
    cases run
    exact ⟨_, invariant.progress_quiet rfl (.moves _ rfl rfl (.visit _ _) rfl rfl) (by rintro v ⟨⟩)⟩
  | nil =>
    have absent : mapOf (c.plug .nil) call.key = none := Ctx.lookup_plug follows .nil
    cases call with
    | query key =>
      simp only [System.advance, running] at run
      rw [ran] at run
      cases run
      have performed := perform_query_absent absent
      refine ⟨_, invariant.progress_quiet rfl (.performs _ rfl rfl (.missing _ _) (.none _ _) rfl ?_ ?_) (by rintro v ⟨⟩)⟩
      · exact congrArg (fun r => some r.1) performed.symm
      · exact congrArg Prod.snd performed.symm
    | remove key =>
      simp only [System.advance, running] at run
      rw [ran] at run
      cases run
      have performed := perform_remove_absent absent
      refine ⟨_, invariant.progress_quiet rfl (.performs _ rfl rfl (.missing _ _) (.none _ _) rfl ?_ ?_) (by rintro v ⟨⟩)⟩
      · exact congrArg (fun r => some r.1) performed.symm
      · exact congrArg Prod.snd performed.symm
    | add key value => exact ⟨_, invariant.progress_add running follows runs run⟩

theorem Invariant.progress_compare (invariant : Invariant s tree) (running : s.threads t = some ⟨call, start, .compare p next⟩)
    (clear : ClearFor s t) (run : s.advance t = .ok (some s')) :
    ∃ tree', Progress s s' tree tree' t ⟨call, start, .compare p next⟩ := by
  have shape := invariant.positions.shape
  obtain ⟨onWay, v, found, child⟩ := invariant.positions.placed t _ running
  obtain ⟨c, l, k, value, r, rfl, follows, rfl⟩ := onWay.child shape found child
  have root := (stored_plug.mp shape.stored).2.1
  obtain ⟨ops, ran⟩ := (runs_node root).system
  by_cases same : call.key = k
  · have equal : ¬strcmp call.key k ≠ 0 := by simpa [strcmp_eq_zero] using same
    have present : mapOf (c.plug (.node next l k value r)) call.key = some value := by
      rw [mapOf, same]
      exact lookup_present (same ▸ follows)
    cases call with
    | query key =>
      simp only [System.advance, running] at run
      rw [ran] at run
      cases (if_neg equal).symm.trans run
      have performed := perform_query_present present
      refine ⟨_, invariant.progress_quiet rfl (.performs _ rfl rfl (.found _ _) (.none _ _) rfl ?_ ?_) (by rintro v ⟨⟩)⟩
      · refine Eq.trans ?_ (congrArg (fun r => some r.1) performed.symm)
        exact congrArg (Option.map fun v => Result.value v.value) root
      · exact congrArg Prod.snd performed.symm
    | add key value' =>
      simp only [System.advance, running] at run
      rw [ran] at run
      cases (if_neg equal).symm.trans run
      have performed : perform (mapOf _) (.add key value') = _ := perform_add_present present
      refine ⟨_, invariant.progress_quiet rfl (.performs _ rfl rfl (.done _ _ _ _) (.none _ _) rfl ?_ ?_) (by rintro v ⟨⟩)⟩
      · exact congrArg (fun r => some r.1) performed.symm
      · exact congrArg Prod.snd performed.symm
    | remove key =>
      obtain rfl : key = k := same
      exact ⟨_, invariant.progress_remove running follows clear run⟩
  · have different : strcmp call.key k ≠ 0 := by simpa [strcmp_eq_zero] using same
    simp only [System.advance, running] at run
    rw [ran] at run
    cases (if_pos different).symm.trans run
    exact ⟨_, invariant.progress_quiet rfl (.moves _ rfl rfl (.other _ _) rfl rfl) (by rintro v ⟨⟩)⟩

theorem Invariant.progress_reading (invariant : Invariant s tree) (running : s.threads t = some ⟨call, start, .reading n⟩)
    (run : s.advance t = .ok (some s')) : ∃ tree', Progress s s' tree tree' t ⟨call, start, .reading n⟩ := by
  obtain ⟨_, v, found, _⟩ := invariant.positions.placed t _ running
  obtain ⟨ops, ran⟩ := (runs_node found).system
  simp only [System.advance, running] at run
  rw [ran] at run
  cases run
  refine ⟨_, invariant.progress_quiet rfl (.moves _ rfl rfl (.reading _ _) rfl ?_) (by rintro v ⟨⟩)⟩
  exact (congrArg (Option.map fun v => Result.value v.value) found).symm

theorem Invariant.progress_return {victim : Option NodeId} {result : Result} (invariant : Invariant s tree)
    (running : s.threads t = some ⟨call, start, .finish [] victim result⟩) (run : s.advance t = .ok (some s')) :
    ∃ tree', Progress s s' tree tree' t ⟨call, start, .finish [] victim result⟩ := by
  have shape := invariant.positions.shape
  cases victim with
  | none =>
    simp only [System.advance, running] at run
    cases run
    refine ⟨tree, shape, .returns result rfl rfl rfl rfl, fun _ _ _ _ => rfl, ?_⟩
    intro n present
    by_cases member : n ∈ head :: tree.addrs
    · exact Or.inl member
    · exact Or.inr (Or.inr ⟨present, member, fun isVictim => by cases isVictim⟩)
  | some v =>
    have detached := invariant.positions.detached t _ v running rfl
    obtain ⟨content, found⟩ := detached.present
    obtain ⟨ops, ran⟩ := (runs_nodeDestructor found).system
    simp only [System.advance, running] at run
    rw [ran] at run
    cases run
    refine ⟨tree, (shape.forget detached.out).withOps ops, .returns result rfl rfl rfl rfl, ?_, ?_⟩
    · intro u other here isOther
      apply answer_congr
      intro n held
      refine Function.update_of_ne ?_ _ _
      rintro rfl
      exact (detached.free u other here isOther).1 held
    · intro n present
      by_cases isVictim : n = v
      · subst isVictim
        exact (present (Function.update_self _ _ _)).elim
      · by_cases member : n ∈ head :: tree.addrs
        · exact Or.inl member
        · refine Or.inr (Or.inr ⟨?_, member, fun same => isVictim (Option.some.inj same).symm⟩)
          change Function.update s.store.nodes v none n ≠ none at present
          rwa [Function.update_of_ne isVictim] at present

end

theorem Invariant.progress (invariant : Invariant s tree) (clear : ClearFor s t) (run : s.advance t = .ok (some s')) :
    ∃ act tree', s.threads t = some act ∧ Progress s s' tree tree' t act := by
  cases running : s.threads t with
  | none =>
    simp only [System.advance, running] at run
    cases run
  | some act =>
    refine ⟨act, ?_⟩
    have placed := invariant.positions.placed t _ running
    obtain ⟨call, start, pc⟩ := act
    cases pc with
    | start =>
      simp only [System.advance, running] at run
      exact ⟨_, rfl, invariant.progress_lock List.mem_cons_self run .start rfl rfl fun _ => rfl⟩
    | visit p =>
      obtain ⟨tree', progress⟩ := invariant.progress_visit running run
      exact ⟨tree', rfl, progress⟩
    | wait p next =>
      simp only [System.advance, running] at run
      obtain ⟨onWay, v, found, child⟩ := placed
      obtain ⟨c, l, k, value, r, rfl, follows, rfl⟩ := onWay.child invariant.positions.shape found child
      have inTree := root_member c next l k value r
      exact ⟨_, rfl, invariant.progress_lock (List.mem_cons_of_mem _ inTree) run (.wait _ _) rfl rfl fun _ => rfl⟩
    | compare p next =>
      obtain ⟨tree', progress⟩ := invariant.progress_compare running clear run
      exact ⟨tree', rfl, progress⟩
    | descend p next =>
      have released := run
      simp only [System.advance, running] at released
      exact ⟨_, rfl, invariant.progress_unlock running (by simp [Pc.held]) released (.descend _ _) rfl fun _ => rfl⟩
    | hit p target =>
      have released := run
      simp only [System.advance, running] at released
      exact ⟨_, rfl, invariant.progress_unlock running (by simp [Pc.held]) released (.hit _ _) rfl fun _ => rfl⟩
    | reading target =>
      obtain ⟨tree', progress⟩ := invariant.progress_reading running run
      exact ⟨tree', rfl, progress⟩
    | finish unlocks victim result =>
      cases unlocks with
      | cons n unlocks =>
        have released := run
        simp only [System.advance, running] at released
        exact ⟨_, rfl, invariant.progress_unlock running List.mem_cons_self released (.unlock _ _ _ _) rfl fun _ => rfl⟩
      | nil =>
        obtain ⟨tree', progress⟩ := invariant.progress_return running run
        exact ⟨tree', rfl, progress⟩

/-! ### Whole runs -/

theorem Invariant.advance (invariant : Invariant s tree) (clear : ClearFor s t) (run : s.advance t = .ok (some s')) :
    ∃ act tree', s.threads t = some act ∧ Progress s s' tree tree' t act ∧ Invariant s' tree' := by
  obtain ⟨act, tree', running, progress⟩ := invariant.progress clear run
  have allowed : Clear s (.advance t) := clear
  have step : s.act (.advance t) = .ok (some s') := run
  obtain ⟨tree'', after⟩ := invariant.step allowed step
  obtain rfl := after.positions.shape.unique progress.shape
  exact ⟨act, tree'', running, progress, after⟩

theorem Refines.step {action : Action} (invariant : Invariant s tree) (refines : Refines s tree a) (clear : Clear s action)
    (run : s.act action = .ok (some s')) :
    ∃ tree' a', Invariant s' tree' ∧ Refines s' tree' a' ∧ Relation.ReflTransGen (Atomic.Step perform) a a' := by
  cases action with
  | invoke t call =>
    obtain ⟨idle, short, rfl⟩ := System.act_invoke run
    have pending : a.calls t = none := by
      rw [refines.calls]
      simp only [idle, Option.map_none]
    have step : Atomic.Step perform a _ := .invoke t call pending
    refine ⟨tree, _, invariant.invoke idle short, ⟨?_, ?_, ?_⟩, .single step⟩
    · exact refines.state
    · funext u
      by_cases here : u = t
      · subst here
        simp [System.invoke, refines.history, Activity.answer]
      · simp [System.invoke, here, refines.calls]
    · simp [System.invoke, refines.history, Event.seen]
  | advance t =>
    obtain ⟨act, tree', running, progress, after⟩ := invariant.advance clear run
    obtain ⟨a', refines', steps⟩ := refines.progress running progress
    exact ⟨tree', a', after, refines', steps⟩

theorem interleaving_refines (reachable : Interleaving Clear s) :
    ∃ tree a, Invariant s tree ∧ Refines s tree a ∧ Atomic.Runs perform (fun _ => none) a := by
  refine Transition.Reachable.invariant (P := fun s => ∃ tree a, Invariant s tree ∧ Refines s tree a ∧
    Atomic.Runs perform (fun _ => none) a) reachable ⟨_, _, invariant_initial, refines_initial, .refl⟩ ?_
  intro s s' action before clear run
  obtain ⟨tree, a, invariant, refines, runs⟩ := before
  obtain ⟨tree', a', after, refines', steps⟩ := refines.step invariant clear run
  exact ⟨tree', a', after, refines', runs.trans steps⟩

/-- The calls of all threads are linearizable, and the tree holds the map that they lead to. -/
theorem interleaving_linearizable (reachable : Interleaving Clear s) : ∃ tree order, Shape s.store tree ∧
    Linearization perform (fun _ => none) (s.log.map Event.seen) order (mapOf tree) := by
  obtain ⟨tree, a, invariant, refines, runs⟩ := interleaving_refines reachable
  obtain ⟨order, linear⟩ := runs.linearization
  rw [refines.history, refines.state] at linear
  exact ⟨tree, order, invariant.positions.shape, linear⟩

/-- Thread 1 removes `c` while the query of `t` is under way. -/
def overlapping : List Action :=
  threeKeys ++ .invoke 1 (.remove (text "c")) :: List.replicate 8 (.advance 1) ++ List.replicate 3 (.advance 0)

theorem linearizable_overlapping : ∃ s tree order, Transition.follow System.act Clear overlapping System.initial = some s ∧
    Shape s.store tree ∧ Linearization perform (fun _ => none) (s.log.map Event.seen) order (mapOf tree) := by
  obtain ⟨s, found⟩ := Option.isSome_iff_exists.mp
    (show (Transition.follow System.act Clear overlapping System.initial).isSome = true by decide +kernel)
  obtain ⟨tree, order, linear⟩ := interleaving_linearizable (Transition.follow_reachable .initial found)
  exact ⟨s, tree, order, found, linear⟩

end Cs1330.Db
