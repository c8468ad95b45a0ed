import Cs1330.Lib.Run
import Cs1330.Db.Threads

/-!
# The locks of the threads

Where a thread stands says which locks it holds, so the table of holders adds nothing to the
positions of the threads, and a lock held for writing is held by one thread only.
-/

namespace Cs1330.Db

def Pc.held : Pc → List NodeId
  | start => []
  | visit p => [p]
  | wait p _ => [p]
  | compare p next => [p, next]
  | descend p next => [p, next]
  | hit p target => [p, target]
  | reading target => [target]
  | finish unlocks _ _ => unlocks

/-- `head` is always locked for writing. -/
def Call.lockMode (call : Call) (n : NodeId) : Mode := if n = head then .write else call.mode

variable {s s' : System} {t u : Nat} {act other : Activity} {n : NodeId} {pc : Pc} {mode : Mode}

structure Exclusion (s : System) : Prop where
  table : ∀ n t mode, (t, mode) ∈ s.holders n ↔
    ∃ act, s.threads t = some act ∧ n ∈ act.pc.held ∧ mode = act.call.lockMode n
  nodup : ∀ t act, s.threads t = some act → act.pc.held.Nodup
  exclusive : ∀ t u act other n, s.threads t = some act → s.threads u = some other → n ∈ act.pc.held →
    n ∈ other.pc.held → act.call.lockMode n = .write → u = t

theorem exclusion_initial : Exclusion System.initial := by
  constructor
  · simp [System.initial]
  · intro t act found
    cases found
  · intro t u act other n found
    cases found

/-- A step of thread `t`: the locks it now has were its own before, or the table granted them. -/
theorem Exclusion.step (exclusion : Exclusion s) (others : ∀ u, u ≠ t → s'.threads u = s.threads u)
    (foreign : ∀ n u mode, u ≠ t → ((u, mode) ∈ s'.holders n ↔ (u, mode) ∈ s.holders n))
    (own : ∀ n mode, (t, mode) ∈ s'.holders n ↔
      ∃ act, s'.threads t = some act ∧ n ∈ act.pc.held ∧ mode = act.call.lockMode n)
    (nodup : ∀ act, s'.threads t = some act → act.pc.held.Nodup)
    (granted : ∀ act n, s'.threads t = some act → n ∈ act.pc.held →
      (∃ old, s.threads t = some old ∧ n ∈ old.pc.held ∧ old.call = act.call) ∨ s.CanLock (act.call.lockMode n) n) :
    Exclusion s' := by
  constructor
  · intro n u mode
    by_cases here : u = t
    · subst here
      exact own n mode
    · rw [foreign n u mode here, others u here]
      exact exclusion.table n u mode
  · intro u other found
    by_cases here : u = t
    · subst here
      exact nodup other found
    · rw [others u here] at found
      exact exclusion.nodup u other found
  · intro u w first second n uFound wFound inFirst inSecond write
    by_cases uHere : u = t
    · by_cases wHere : w = t
      · rw [uHere, wHere]
      · subst uHere
        rw [others w wHere] at wFound
        rcases granted first n uFound inFirst with ⟨old, was, inOld, same⟩ | can
        · exact exclusion.exclusive u w old second n was wFound inOld inSecond (by rw [same, write])
        · have free : s.holders n = [] := by rwa [write] at can
          have held := (exclusion.table n w _).mpr ⟨second, wFound, inSecond, rfl⟩
          rw [free] at held
          cases held
    · rw [others u uHere] at uFound
      by_cases wHere : w = t
      · subst wHere
        rcases granted second n wFound inSecond with ⟨old, was, inOld, _⟩ | can
        · exact exclusion.exclusive u w first old n uFound was inFirst inOld write
        · have held := (exclusion.table n u .write).mpr ⟨first, uFound, inFirst, write.symm⟩
          cases isMode : second.call.lockMode n with
          | write =>
            have free : s.holders n = [] := by rwa [isMode] at can
            rw [free] at held
            cases held
          | read =>
            have readers : ∀ holder ∈ s.holders n, holder.2 = .read := by rwa [isMode] at can
            cases readers _ held
      · rw [others w wHere] at wFound
        exact exclusion.exclusive u w first second n uFound wFound inFirst inSecond write

@[simp] theorem goto_self (s : System) (t : Nat) (act : Activity) (pc : Pc) :
    (s.goto t act pc).threads t = some { act with pc := pc } := Function.update_self _ _ _

theorem goto_other (here : u ≠ t) : (s.goto t act pc).threads u = s.threads u := Function.update_of_ne here _ _

theorem Exclusion.goto (exclusion : Exclusion s) (running : s.threads t = some act) (same : pc.held = act.pc.held) :
    Exclusion (s.goto t act pc) := by
  refine exclusion.step (fun u here => goto_other here) (fun _ _ _ _ => Iff.rfl) ?_ ?_ ?_
  · intro n mode
    apply (exclusion.table n t mode).trans
    simp [running, same]
  · intro new isNew
    obtain rfl := Option.some.inj ((goto_self s t act pc).symm.trans isNew)
    rw [same]
    exact exclusion.nodup t act running
  · intro new n isNew held
    obtain rfl := Option.some.inj ((goto_self s t act pc).symm.trans isNew)
    exact Or.inl ⟨act, running, by rwa [← same], rfl⟩

theorem Exclusion.lock (exclusion : Exclusion s) (running : s.threads t = some act)
    (held : ∀ m, m ∈ pc.held ↔ m = n ∨ m ∈ act.pc.held) (distinct : pc.held.Nodup)
    (granted : s.CanLock (act.call.lockMode n) n) :
    Exclusion ({ s with holders := Function.update s.holders n ((t, act.call.lockMode n) :: s.holders n) }.goto t act pc) := by
  refine exclusion.step (fun u here => goto_other here) ?_ ?_ ?_ ?_
  · intro m u mode here
    by_cases isNode : m = n
    · subst isNode
      simp [System.goto, here]
    · simp [System.goto, isNode]
  · intro m mode
    simp only [goto_self, Option.some.injEq, exists_eq_left', held]
    have old := exclusion.table m t mode
    simp only [running, Option.some.injEq, exists_eq_left'] at old
    by_cases isNode : m = n
    · subst isNode
      simp only [System.goto, Function.update_self, List.mem_cons, Prod.mk.injEq, true_and, old]
      tauto
    · simp only [System.goto, Function.update_of_ne isNode, old, isNode, false_or]
  · intro new isNew
    obtain rfl := Option.some.inj ((goto_self _ t act pc).symm.trans isNew)
    exact distinct
  · intro new m isNew member
    obtain rfl := Option.some.inj ((goto_self _ t act pc).symm.trans isNew)
    rcases (held m).mp member with rfl | old
    · exact Or.inr granted
    · exact Or.inl ⟨act, running, old, rfl⟩

theorem Exclusion.unlock (exclusion : Exclusion s) (running : s.threads t = some act)
    (held : ∀ m, m ∈ pc.held ↔ m ≠ n ∧ m ∈ act.pc.held) (distinct : pc.held.Nodup) :
    Exclusion ({ s with holders := Function.update s.holders n ((s.holders n).filter fun h => h.1 != t) }.goto t act pc) := by
  refine exclusion.step (fun u here => goto_other here) ?_ ?_ ?_ ?_
  · intro m u mode here
    by_cases isNode : m = n
    · subst isNode
      simp [System.goto, here]
    · simp [System.goto, isNode]
  · intro m mode
    simp only [goto_self, Option.some.injEq, exists_eq_left', held]
    have old := exclusion.table m t mode
    simp only [running, Option.some.injEq, exists_eq_left'] at old
    by_cases isNode : m = n
    · subst isNode
      simp [System.goto]
    · simp [System.goto, isNode, old]
  · intro new isNew
    obtain rfl := Option.some.inj ((goto_self _ t act pc).symm.trans isNew)
    exact distinct
  · intro new m isNew member
    obtain rfl := Option.some.inj ((goto_self _ t act pc).symm.trans isNew)
    exact Or.inl ⟨act, running, ((held m).mp member).2, rfl⟩

theorem Exclusion.idle (exclusion : Exclusion s) {next : Option Activity} (before : ∀ act, s.threads t = some act → act.pc.held = [])
    (after : ∀ act, next = some act → act.pc.held = []) (log : List Event) :
    Exclusion { s with threads := Function.update s.threads t next, log := log } := by
  refine exclusion.step (t := t) (fun u here => Function.update_of_ne here _ _) (fun _ _ _ _ => Iff.rfl) ?_ ?_ ?_
  · intro n mode
    apply (exclusion.table n t mode).trans
    simp only [Function.update_self]
    constructor
    · rintro ⟨act, running, held, _⟩
      rw [before act running] at held
      cases held
    · rintro ⟨act, running, held, _⟩
      rw [after act running] at held
      cases held
  · intro act running
    rw [after act (by simpa using running)]
    exact List.nodup_nil
  · intro act n running held
    rw [after act (by simpa using running)] at held
    cases held

/-- Nobody else has a lock on a node that a writer holds. -/
theorem Exclusion.alone (exclusion : Exclusion s) (running : s.threads t = some act) (writer : act.call.mode = .write)
    (held : n ∈ act.pc.held) (foreign : s.threads u = some other) (different : u ≠ t) : n ∉ other.pc.held := by
  intro member
  have write : act.call.lockMode n = .write := by
    rw [Call.lockMode, writer, ite_self]
  exact different (exclusion.exclusive t u act other n running foreign held member write)

/-! ### What a step does to the locks -/

/-- A step of thread `t`, up to what it does to the store. -/
inductive Moved (s s' : System) (t : Nat) (act : Activity) : Prop
  | stretch (pc : Pc) : s'.threads = Function.update s.threads t (some { act with pc := pc }) →
      s'.holders = s.holders → act.pc.held ⊆ pc.held → Moved s s' t act
  | lock (n : NodeId) (mode : Mode) (pc : Pc) : s'.threads = Function.update s.threads t (some { act with pc := pc }) →
      s'.holders = Function.update s.holders n ((t, mode) :: s.holders n) → n ∈ pc.held → act.pc.held ⊆ pc.held →
      Moved s s' t act
  | unlock (n : NodeId) (pc : Pc) : s'.threads = Function.update s.threads t (some { act with pc := pc }) →
      s'.holders = Function.update s.holders n ((s.holders n).filter fun h => h.1 != t) →
      (∀ m ∈ act.pc.held, m ≠ n → m ∈ pc.held) → Moved s s' t act
  | returns : s'.threads = Function.update s.threads t none → s'.holders = s.holders → act.pc.held = [] → Moved s s' t act

theorem System.run_ok {α : Type} {code : DbM α} {a : α} (run : s.run code = .ok (a, s')) :
    ∃ store, s' = { s with store := store } := by
  unfold System.run at run
  obtain ⟨pair, _, run⟩ := Run.except_bind run
  cases run
  exact ⟨_, rfl⟩

theorem System.lock_moved {mode : Mode} (run : s.lock t act mode n pc = .ok (some s')) (locked : n ∈ pc.held)
    (kept : act.pc.held ⊆ pc.held) : Moved s s' t act := by
  unfold System.lock at run
  obtain ⟨⟨_, middle⟩, executed, run⟩ := Run.except_bind run
  obtain ⟨store, rfl⟩ := System.run_ok executed
  change (if System.CanLock { s with store := store } mode n then _ else _) = _ at run
  split at run
  · cases run
    exact .lock n mode pc rfl rfl locked kept
  · cases run

theorem System.unlock_moved (run : s.unlock t act n pc = .ok (some s')) (kept : ∀ m ∈ act.pc.held, m ≠ n → m ∈ pc.held) :
    Moved s s' t act := by
  unfold System.unlock at run
  obtain ⟨⟨_, middle⟩, executed, run⟩ := Run.except_bind run
  obtain ⟨store, rfl⟩ := System.run_ok executed
  cases run
  exact .unlock n pc rfl rfl kept

theorem System.advance_moved (run : s.advance t = .ok (some s')) : ∃ act, s.threads t = some act ∧ Moved s s' t act := by
  unfold System.advance at run
  cases running : s.threads t with
  | none =>
    rw [running] at run
    cases run
  | some act =>
    refine ⟨act, rfl, ?_⟩
    rw [running] at run
    obtain ⟨call, start, pc⟩ := act
    cases pc with
    | start => exact System.lock_moved run (by simp [Pc.held]) (by simp [Pc.held])
    | visit p =>
      obtain ⟨⟨next, middle⟩, executed, run⟩ := Run.except_bind run
      obtain ⟨store, rfl⟩ := System.run_ok executed
      cases next with
      | some next =>
        cases run
        exact .stretch _ rfl rfl (List.Subset.refl _)
      | none =>
        cases call with
        | query key =>
          cases run
          exact .stretch _ rfl rfl (List.Subset.refl _)
        | add key value =>
          obtain ⟨⟨_, last⟩, added, run⟩ := Run.except_bind run
          obtain ⟨after, rfl⟩ := System.run_ok added
          cases run
          exact .stretch _ rfl rfl (List.Subset.refl _)
        | remove key =>
          cases run
          exact .stretch _ rfl rfl (List.Subset.refl _)
    | wait p next => exact System.lock_moved run (by simp [Pc.held]) (by simp [Pc.held])
    | compare p next =>
      obtain ⟨⟨content, middle⟩, executed, run⟩ := Run.except_bind run
      obtain ⟨store, rfl⟩ := System.run_ok executed
      by_cases different : strcmp call.key content.key ≠ 0
      · simp only [if_pos different] at run
        cases run
        exact .stretch _ rfl rfl (List.Subset.refl _)
      · simp only [if_neg different] at run
        cases call with
        | query key =>
          cases run
          exact .stretch _ rfl rfl (List.Subset.refl _)
        | add key value =>
          cases run
          exact .stretch _ rfl rfl (List.Subset.refl _)
        | remove key =>
          obtain ⟨⟨victim, last⟩, removed, run⟩ := Run.except_bind run
          obtain ⟨after, rfl⟩ := System.run_ok removed
          cases run
          exact .stretch _ rfl rfl (List.Subset.refl _)
    | descend p next => exact System.unlock_moved run (by simp [Pc.held])
    | hit p target => exact System.unlock_moved run (by simp [Pc.held])
    | reading target =>
      obtain ⟨⟨content, middle⟩, executed, run⟩ := Run.except_bind run
      obtain ⟨store, rfl⟩ := System.run_ok executed
      cases run
      exact .stretch _ rfl rfl (List.Subset.refl _)
    | finish unlocks victim result =>
      cases unlocks with
      | cons n unlocks =>
        exact System.unlock_moved run fun m member different => (List.mem_cons.mp member).resolve_left different
      | nil =>
        cases victim with
        | none =>
          cases run
          exact .returns rfl rfl rfl
        | some victim =>
          obtain ⟨⟨_, middle⟩, executed, run⟩ := Run.except_bind run
          obtain ⟨store, rfl⟩ := System.run_ok executed
          cases run
          exact .returns rfl rfl rfl

def Action.thread : Action → Nat
  | invoke t _ => t
  | advance t => t

/-- Every lock is that of a thread that stands where it holds it. -/
def Covered (s : System) : Prop := ∀ n t mode, (t, mode) ∈ s.holders n → ∃ act, s.threads t = some act ∧ n ∈ act.pc.held

theorem Moved.others (moved : Moved s s' t act) (here : u ≠ t) : s'.threads u = s.threads u := by
  cases moved with
  | stretch pc threads _ _ => rw [threads, Function.update_of_ne here]
  | lock n mode pc threads _ _ _ => rw [threads, Function.update_of_ne here]
  | unlock n pc threads _ _ => rw [threads, Function.update_of_ne here]
  | returns threads _ _ => rw [threads, Function.update_of_ne here]

theorem Covered.moved (covered : Covered s) (running : s.threads t = some act) (moved : Moved s s' t act) : Covered s' := by
  intro n u mode held
  -- Another thread has its lock from before, where it still stands.
  have foreign : u ≠ t → (u, mode) ∈ s.holders n → ∃ act, s'.threads u = some act ∧ n ∈ act.pc.held := by
    intro here was
    rw [moved.others here]
    exact covered n u mode was
  have own : (t, mode) ∈ s.holders n → n ∈ act.pc.held := by
    intro was
    obtain ⟨act', again, member⟩ := covered n t mode was
    obtain rfl := Option.some.inj (running.symm.trans again)
    exact member
  by_cases here : u = t
  · subst here
    cases moved with
    | stretch pc threads holders kept =>
      rw [holders] at held
      exact ⟨_, by rw [threads, Function.update_self], kept (own held)⟩
    | lock m mode' pc threads holders locked kept =>
      refine ⟨_, by rw [threads, Function.update_self], ?_⟩
      rw [holders] at held
      by_cases isNode : n = m
      · rw [isNode]
        exact locked
      · rw [Function.update_of_ne isNode] at held
        exact kept (own held)
    | unlock m pc threads holders kept =>
      refine ⟨_, by rw [threads, Function.update_self], ?_⟩
      rw [holders] at held
      by_cases isNode : n = m
      · subst isNode
        rw [Function.update_self] at held
        simp at held
      · rw [Function.update_of_ne isNode] at held
        exact kept n (own held) isNode
    | returns threads holders none =>
      rw [holders] at held
      have member := own held
      rw [none] at member
      cases member
  · apply foreign here
    cases moved with
    | stretch pc threads holders kept => rwa [holders] at held
    | lock m mode' pc threads holders locked kept =>
      rw [holders] at held
      by_cases isNode : n = m
      · subst isNode
        simpa [here] using held
      · rwa [Function.update_of_ne isNode] at held
    | unlock m pc threads holders kept =>
      rw [holders] at held
      by_cases isNode : n = m
      · subst isNode
        simp only [Function.update_self, List.mem_filter] at held
        exact held.1
      · rwa [Function.update_of_ne isNode] at held
    | returns threads holders none => rwa [holders] at held

/-- A thread without a lock may start a call, or leave one. -/
theorem Covered.idle (covered : Covered s) {next : Option Activity} (before : ∀ act, s.threads t = some act → act.pc.held = [])
    (threads : s'.threads = Function.update s.threads t next) (holders : s'.holders = s.holders) : Covered s' := by
  intro n u mode held
  rw [holders] at held
  obtain ⟨act, running, member⟩ := covered n u mode held
  have here : u ≠ t := by
    rintro rfl
    rw [before act running] at member
    cases member
  exact ⟨act, by rw [threads, Function.update_of_ne here]; exact running, member⟩

theorem System.act_invoke {call : Call} (run : s.act (.invoke t call) = .ok (some s')) :
    s.threads t = none ∧ call.Short ∧ s' = s.invoke t call := by
  change Except.ok (if (s.threads t).isNone ∧ call.Short then some (s.invoke t call) else none) = _ at run
  by_cases possible : (s.threads t).isNone ∧ call.Short
  · rw [if_pos possible] at run
    cases run
    exact ⟨Option.isNone_iff_eq_none.mp possible.1, possible.2, rfl⟩
  · rw [if_neg possible] at run
    cases run

theorem Covered.step {action : Action} (covered : Covered s) (run : s.act action = .ok (some s')) : Covered s' := by
  cases action with
  | invoke t call =>
    obtain ⟨idle, _, rfl⟩ := System.act_invoke run
    refine covered.idle ?_ rfl rfl
    intro act running
    rw [idle] at running
    cases running
  | advance t =>
    obtain ⟨act, running, moved⟩ := System.advance_moved run
    exact covered.moved running moved

theorem System.act_others {action : Action} (run : s.act action = .ok (some s')) (here : u ≠ action.thread) :
    s'.threads u = s.threads u := by
  cases action with
  | invoke t call =>
    obtain ⟨_, _, rfl⟩ := System.act_invoke run
    exact Function.update_of_ne here _ _
  | advance t =>
    obtain ⟨act, running, moved⟩ := System.advance_moved run
    exact moved.others here

end Cs1330.Db
