import Mathlib.Data.List.Nodup
import Mathlib.Logic.Function.Basic
import Mathlib.Logic.Relation

/-!
# Linearizable objects

Clients call the operations of a shared object at the same time. The atomic object performs a
pending operation in one step, somewhere between its invocation and its return. What its clients
see is explained by the operations one after the other, in an order that agrees with real time.
-/

namespace Linearizable

variable {σ Op Res : Type}

inductive Event (Op Res : Type) where
  | invoked (client : Nat) (op : Op)
  /-- `start` is the place of the invocation in the history -/
  | returned (client : Nat) (op : Op) (start : Nat) (result : Res)

/-- An operation of the explanation, named by the place of its invocation. -/
structure Performed (Op Res : Type) where
  client : Nat
  start : Nat
  op : Op
  result : Res

/-- The operations, one after the other, have these results and lead to the last state. -/
def Legal (apply : σ → Op → Res × σ) : σ → List (Performed Op Res) → σ → Prop
  | s, [], s' => s' = s
  | s, p :: rest, s' => p.result = (apply s p.op).1 ∧ Legal apply (apply s p.op).2 rest s'

structure Linearization (apply : σ → Op → Res × σ) (initial : σ) (history : List (Event Op Res))
    (order : List (Performed Op Res)) (final : σ) : Prop where
  legal : Legal apply initial order final
  invoked : ∀ p ∈ order, history[p.start]? = some (.invoked p.client p.op)
  once : (order.map Performed.start).Nodup
  answered : ∀ client op start result, .returned client op start result ∈ history → ⟨client, start, op, result⟩ ∈ order
  /-- what comes later in the order had not returned before the other was invoked -/
  realTime : order.Pairwise fun p q =>
    ∀ i client op result, history[i]? = some (.returned client op q.start result) → p.start < i

/-! ### The atomic object -/

structure Pending (Op Res : Type) where
  op : Op
  start : Nat
  result : Option Res

structure Atomic (σ Op Res : Type) where
  state : σ
  calls : Nat → Option (Pending Op Res)
  history : List (Event Op Res)

def Atomic.initial (s : σ) : Atomic σ Op Res := ⟨s, fun _ => none, []⟩

inductive Atomic.Step (apply : σ → Op → Res × σ) (a : Atomic σ Op Res) : Atomic σ Op Res → Prop
  | invoke (client : Nat) (op : Op) : a.calls client = none → Step apply a
      { a with
        calls := Function.update a.calls client (some ⟨op, a.history.length, none⟩)
        history := a.history ++ [.invoked client op] }
  | perform (client : Nat) (op : Op) (start : Nat) : a.calls client = some ⟨op, start, none⟩ → Step apply a
      { a with
        state := (apply a.state op).2
        calls := Function.update a.calls client (some ⟨op, start, some (apply a.state op).1⟩) }
  | returns (client : Nat) (op : Op) (start : Nat) (result : Res) : a.calls client = some ⟨op, start, some result⟩ → Step apply a
      { a with
        calls := Function.update a.calls client none
        history := a.history ++ [.returned client op start result] }

abbrev Atomic.Runs (apply : σ → Op → Res × σ) (s : σ) : Atomic σ Op Res → Prop :=
  Relation.ReflTransGen (Atomic.Step apply) (Atomic.initial s)

variable {apply : σ → Op → Res × σ} {s s' initial : σ} {order : List (Performed Op Res)} {a a' : Atomic σ Op Res}
  {history : List (Event Op Res)} {event seen : Event Op Res} {client : Nat} {op : Op} {start : Nat} {result : Res}

theorem Legal.snoc (legal : Legal apply s order s') (client start : Nat) (op : Op) :
    Legal apply s (order ++ [⟨client, start, op, (apply s' op).1⟩]) (apply s' op).2 := by
  induction order generalizing s with
  | nil =>
    obtain rfl : s' = s := legal
    exact ⟨rfl, rfl⟩
  | cons p rest ih => exact ⟨legal.1, ih legal.2⟩

theorem getElem?_snoc {i : Nat} (found : (history ++ [event])[i]? = some seen) :
    history[i]? = some seen ∨ i = history.length ∧ seen = event := by
  rcases Nat.lt_trichotomy i history.length with less | same | more
  · rw [List.getElem?_append_left less] at found
    exact Or.inl found
  · subst same
    rw [List.getElem?_concat_length] at found
    exact Or.inr ⟨rfl, (Option.some.inj found).symm⟩
  · rw [List.getElem?_eq_none (by simp; omega)] at found
    cases found

theorem getElem?_keep {i : Nat} (found : history[i]? = some seen) : (history ++ [event])[i]? = some seen := by
  rw [List.getElem?_append_left (List.getElem?_eq_some_iff.mp found).1]
  exact found

theorem lt_length {i : Nat} (found : history[i]? = some seen) : i < history.length :=
  (List.getElem?_eq_some_iff.mp found).1

/-- An order that explains what the clients of the atomic object have seen so far. -/
structure Explains (apply : σ → Op → Res × σ) (initial : σ) (a : Atomic σ Op Res) (order : List (Performed Op Res)) :
    Prop where
  linear : Linearization apply initial a.history order a.state
  started : ∀ c call, a.calls c = some call → a.history[call.start]? = some (.invoked c call.op)
  running : ∀ c call, a.calls c = some call → ∀ client op result, .returned client op call.start result ∉ a.history
  done : ∀ c call result, a.calls c = some call → call.result = some result → ⟨c, call.start, call.op, result⟩ ∈ order
  waiting : ∀ c call, a.calls c = some call → call.result = none → ∀ p ∈ order, p.start ≠ call.start

theorem explains_initial : Explains apply initial (Atomic.initial initial) ([] : List (Performed Op Res)) := by
  refine ⟨⟨rfl, ?_, List.nodup_nil, ?_, .nil⟩, ?_, ?_, ?_, ?_⟩
  · rintro p ⟨⟩
  · rintro client op start result ⟨⟩
  · rintro c call ⟨⟩
  · rintro c call ⟨⟩
  · rintro c call result ⟨⟩
  · rintro c call ⟨⟩

theorem update_cases {calls : Nat → Option (Pending Op Res)} {new : Option (Pending Op Res)} {c : Nat} {call : Pending Op Res}
    (found : Function.update calls client new c = some call) :
    c = client ∧ new = some call ∨ c ≠ client ∧ calls c = some call := by
  by_cases here : c = client
  · subst here
    rw [Function.update_self] at found
    exact Or.inl ⟨rfl, found⟩
  · rw [Function.update_of_ne here] at found
    exact Or.inr ⟨here, found⟩

theorem Explains.invoke (explains : Explains apply initial a order) (client : Nat) (op : Op) :
    Explains apply initial
      { a with
        calls := Function.update a.calls client (some ⟨op, a.history.length, none⟩)
        history := a.history ++ [.invoked client op] } order := by
  have linear := explains.linear
  have older : ∀ c op' start result, Event.returned c op' start result ∈ a.history ++ [.invoked client op] →
      Event.returned c op' start result ∈ a.history := by
    intro c op' start result member
    rcases List.mem_append.mp member with old | new
    · exact old
    · cases List.mem_singleton.mp new
  refine ⟨⟨linear.legal, fun p member => getElem?_keep (linear.invoked p member), linear.once, ?_, ?_⟩, ?_, ?_, ?_, ?_⟩
  · exact fun c op start result member => linear.answered c op start result (older c op start result member)
  · refine linear.realTime.imp fun later i c op result found => ?_
    rcases getElem?_snoc found with old | ⟨_, new⟩
    · exact later i c op result old
    · cases new
  · intro c call found
    rcases update_cases found with ⟨rfl, new⟩ | ⟨_, old⟩
    · obtain rfl := Option.some.inj new
      exact List.getElem?_concat_length
    · exact getElem?_keep (explains.started c call old)
  · intro c call found client op result member
    rcases update_cases found with ⟨rfl, new⟩ | ⟨_, old⟩
    · obtain rfl := Option.some.inj new
      have answered := linear.answered _ _ _ _ (older _ _ _ _ member)
      exact Nat.lt_irrefl _ (lt_length (linear.invoked _ answered))
    · exact explains.running c call old _ _ _ (older _ _ _ _ member)
  · intro c call result found isResult
    rcases update_cases found with ⟨rfl, new⟩ | ⟨_, old⟩
    · obtain rfl := Option.some.inj new
      cases isResult
    · exact explains.done c call result old isResult
  · intro c call found isNone p member
    rcases update_cases found with ⟨rfl, new⟩ | ⟨_, old⟩
    · obtain rfl := Option.some.inj new
      exact Nat.ne_of_lt (lt_length (linear.invoked p member))
    · exact explains.waiting c call old isNone p member

/-- Two clients wait for calls that were invoked at different places. -/
theorem Explains.start_ne (explains : Explains apply initial a order) {c d : Nat} {call other : Pending Op Res}
    (first : a.calls c = some call) (second : a.calls d = some other) (different : c ≠ d) : call.start ≠ other.start := by
  intro same
  have started := explains.started c call first
  rw [same, explains.started d other second] at started
  injection started with isEvent
  injection isEvent with sameClient
  exact different sameClient.symm

theorem Explains.perform (explains : Explains apply initial a order) (pending : a.calls client = some ⟨op, start, none⟩) :
    Explains apply initial
      { a with
        state := (apply a.state op).2
        calls := Function.update a.calls client (some ⟨op, start, some (apply a.state op).1⟩) }
      (order ++ [⟨client, start, op, (apply a.state op).1⟩]) := by
  have linear := explains.linear
  have fresh := explains.waiting client _ pending rfl
  refine ⟨⟨linear.legal.snoc client start op, ?_, ?_, ?_, ?_⟩, ?_, ?_, ?_, ?_⟩
  · intro p member
    rcases List.mem_append.mp member with old | new
    · exact linear.invoked p old
    · obtain rfl := List.mem_singleton.mp new
      exact explains.started client _ pending
  · rw [List.map_append, List.map_singleton]
    refine List.Nodup.append linear.once (List.nodup_singleton _) ?_
    rw [List.disjoint_singleton]
    intro member
    obtain ⟨p, inOrder, same⟩ := List.mem_map.mp member
    exact fresh p inOrder same
  · exact fun c op start result member => List.mem_append_left _ (linear.answered c op start result member)
  · refine List.pairwise_append.mpr ⟨linear.realTime, List.pairwise_singleton _ _, ?_⟩
    intro p _ q isNew i c op' result found
    obtain rfl := List.mem_singleton.mp isNew
    exact (explains.running client _ pending _ _ _ (List.mem_of_getElem? found)).elim
  · intro c call found
    rcases update_cases found with ⟨rfl, new⟩ | ⟨_, old⟩
    · obtain rfl := Option.some.inj new
      exact explains.started c ⟨op, start, none⟩ pending
    · exact explains.started c call old
  · intro c call found
    rcases update_cases found with ⟨rfl, new⟩ | ⟨_, old⟩
    · obtain rfl := Option.some.inj new
      exact explains.running c ⟨op, start, none⟩ pending
    · exact explains.running c call old
  · intro c call result found isResult
    rcases update_cases found with ⟨rfl, new⟩ | ⟨_, old⟩
    · obtain rfl := Option.some.inj new
      obtain rfl := Option.some.inj isResult
      exact List.mem_append_right _ List.mem_cons_self
    · exact List.mem_append_left _ (explains.done c call result old isResult)
  · intro c call found isNone p member
    rcases update_cases found with ⟨rfl, new⟩ | ⟨here, old⟩
    · obtain rfl := Option.some.inj new
      cases isNone
    · rcases List.mem_append.mp member with before | isNew
      · exact explains.waiting c call old isNone p before
      · obtain rfl := List.mem_singleton.mp isNew
        exact explains.start_ne pending old (Ne.symm here)

theorem Explains.returns (explains : Explains apply initial a order) (pending : a.calls client = some ⟨op, start, some result⟩) :
    Explains apply initial
      { a with
        calls := Function.update a.calls client none
        history := a.history ++ [.returned client op start result] } order := by
  have linear := explains.linear
  have kept : ∀ c call, Function.update a.calls client none c = some call → c ≠ client ∧ a.calls c = some call := by
    intro c call found
    rcases update_cases found with ⟨_, new⟩ | old
    · cases new
    · exact old
  refine ⟨⟨linear.legal, fun p member => getElem?_keep (linear.invoked p member), linear.once, ?_, ?_⟩, ?_, ?_, ?_, ?_⟩
  · intro c op' start' result' member
    rcases List.mem_append.mp member with old | new
    · exact linear.answered c op' start' result' old
    · cases List.mem_singleton.mp new
      exact explains.done client _ _ pending rfl
  · refine linear.realTime.imp_of_mem fun inOrder _ later i c op' result' found => ?_
    rcases getElem?_snoc found with old | ⟨rfl, _⟩
    · exact later i c op' result' old
    · exact lt_length (linear.invoked _ inOrder)
  · intro c call found
    exact getElem?_keep (explains.started c call (kept c call found).2)
  · intro c call found d op' result' member
    obtain ⟨here, old⟩ := kept c call found
    rcases List.mem_append.mp member with before | isNew
    · exact explains.running c call old d op' result' before
    · have same : call.start = start := by
        cases List.mem_singleton.mp isNew
        rfl
      exact explains.start_ne old pending here same
  · exact fun c call result found => explains.done c call result (kept c call found).2
  · exact fun c call found => explains.waiting c call (kept c call found).2

theorem Explains.step (explains : Explains apply initial a order) (step : a.Step apply a') :
    ∃ order', Explains apply initial a' order' := by
  cases step with
  | invoke client op _ => exact ⟨_, explains.invoke client op⟩
  | perform client op start pending => exact ⟨_, explains.perform pending⟩
  | returns client op start result pending => exact ⟨_, explains.returns pending⟩

/-- Every run of the atomic object has an explanation. -/
theorem Atomic.Runs.linearization (runs : Atomic.Runs apply initial a) :
    ∃ order, Linearization apply initial a.history order a.state := by
  have explained : ∃ order, Explains apply initial a order := by
    induction runs with
    | refl => exact ⟨_, explains_initial⟩
    | tail _ step ih =>
      obtain ⟨order, explains⟩ := ih
      exact explains.step step
  obtain ⟨order, explains⟩ := explained
  exact ⟨order, explains.linear⟩

end Linearizable
