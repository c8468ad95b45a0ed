import Cs1330.Lib.Transition
import Cs1330.Db.Nodes

/-!
# Client threads in the database

Any number of threads run `db_query`, `db_add` and `db_remove`. A thread stops before each
rwlock operation and before each stretch of code between two of them, so one step of a thread is
one lock operation or one such stretch; the stretches are those of `Cs1330.Db.Nodes`. Locks
exclude as POSIX specifies: a write lock needs a free lock, a read lock one without a writer.
-/

namespace Cs1330.Db

inductive Call where
  | query (key : CString)
  | add (key value : CString)
  | remove (key : CString)
  deriving DecidableEq, Repr

def Call.key : Call → CString
  | query key => key
  | add key _ => key
  | remove key => key

/-- The `write` argument of `search`. -/
def Call.mode : Call → Mode
  | query _ => .read
  | add _ _ => .write
  | remove _ => .write

inductive Result where
  | value (text : CString)
  | notFound
  | status (code : Int)
  deriving DecidableEq, Repr

/-- Where a thread stands in its call. -/
inductive Pc where
  /-- before `wrlock(&head.lock)` -/
  | start
  /-- at the start of `search`, with `p` locked -/
  | visit (p : NodeId)
  /-- before the lock operation on `next` -/
  | wait (p next : NodeId)
  /-- before the comparison with the key of `next` -/
  | compare (p next : NodeId)
  /-- before `unlock(&parent->lock)` and the recursive call -/
  | descend (p next : NodeId)
  /-- `db_query` has found `target` and unlocks its parent -/
  | hit (p target : NodeId)
  /-- before `db_query` copies the value -/
  | reading (target : NodeId)
  /-- the unlocks at the end of a call, then the destruction of `victim` and the return -/
  | finish (unlocks : List NodeId) (victim : Option NodeId) (result : Result)
  deriving DecidableEq, Repr

inductive Event where
  | invoked (thread : Nat) (call : Call)
  /-- `start` is the position in the log at which the call was invoked -/
  | returned (thread : Nat) (call : Call) (start : Nat) (result : Result)
  deriving DecidableEq, Repr

structure Activity where
  call : Call
  start : Nat
  pc : Pc

structure System where
  store : Store
  holders : NodeId → List (Nat × Mode)
  threads : Nat → Option Activity
  log : List Event

def System.initial : System := ⟨Store.empty, fun _ => [], fun _ => none, []⟩

/-- Run a stretch of code of one thread. -/
def System.run {α : Type} (s : System) (code : DbM α) : Except Fault (α × System) := do
  let (a, store) ← code s.store
  return (a, { s with store := store })

def System.goto (s : System) (t : Nat) (act : Activity) (pc : Pc) : System :=
  { s with threads := Function.update s.threads t (some { act with pc := pc }) }

def System.CanLock (s : System) (mode : Mode) (n : NodeId) : Prop :=
  match mode with
  | .write => s.holders n = []
  | .read => ∀ holder ∈ s.holders n, holder.2 = .read

instance (s : System) (mode : Mode) (n : NodeId) : Decidable (s.CanLock mode n) :=
  match mode with
  | .write => inferInstanceAs (Decidable (s.holders n = []))
  | .read => inferInstanceAs (Decidable (∀ holder ∈ s.holders n, holder.2 = .read))

/-- A lock operation: `none` while the lock cannot be granted. -/
def System.lock (s : System) (t : Nat) (act : Activity) (mode : Mode) (n : NodeId) (pc : Pc) :
    Except Fault (Option System) := do
  let (_, s) ← s.run (rwlock mode n)
  if s.CanLock mode n then
    return some ({ s with holders := Function.update s.holders n ((t, mode) :: s.holders n) }.goto t act pc)
  return none

def System.unlock (s : System) (t : Nat) (act : Activity) (n : NodeId) (pc : Pc) : Except Fault (Option System) := do
  let (_, s) ← s.run (Db.unlock n)
  return some ({ s with holders := Function.update s.holders n ((s.holders n).filter fun h => h.1 != t) }.goto t act pc)

def System.returns (s : System) (t : Nat) (act : Activity) (result : Result) : System :=
  { s with
    threads := Function.update s.threads t none
    log := s.log ++ [.returned t act.call act.start result] }

/-- One step of thread `t`: `none` when it runs no call or waits for a lock. -/
def System.advance (s : System) (t : Nat) : Except Fault (Option System) := do
  match s.threads t with
  | none => return none
  | some act =>
    match act.pc with
    | .start => s.lock t act .write head (.visit head)
    | .visit p =>
      let (next, s) ← s.run (childFor act.call.key p)
      match next with
      | some next => return some (s.goto t act (.wait p next))
      | none =>
        match act.call with
        | .query _ => return some (s.goto t act (.finish [p] none .notFound))
        | .add key value =>
          let (_, s) ← s.run (addUnder key value p)
          return some (s.goto t act (.finish [p] none (.status 1)))
        | .remove _ => return some (s.goto t act (.finish [p] none (.status 0)))
    | .wait p next => s.lock t act act.call.mode next (.compare p next)
    | .compare p next =>
      let (content, s) ← s.run (node next)
      if strcmp act.call.key content.key ≠ 0 then
        return some (s.goto t act (.descend p next))
      match act.call with
      | .query _ => return some (s.goto t act (.hit p next))
      | .add _ _ => return some (s.goto t act (.finish [p, next] none (.status 0)))
      | .remove _ =>
        let (victim, s) ← s.run (unlinkNode p next)
        return some (s.goto t act (.finish [p, next] (some victim) (.status 1)))
    | .descend p next => s.unlock t act p (.visit next)
    | .hit p target => s.unlock t act p (.reading target)
    | .reading target =>
      let (content, s) ← s.run (node target)
      return some (s.goto t act (.finish [target] none (.value content.value)))
    | .finish (n :: unlocks) victim result => s.unlock t act n (.finish unlocks victim result)
    | .finish [] victim result =>
      match victim with
      | none => return some (s.returns t act result)
      | some victim =>
        let (_, s) ← s.run (nodeDestructor victim)
        return some (s.returns t act result)

def System.invoke (s : System) (t : Nat) (call : Call) : System :=
  { s with
    threads := Function.update s.threads t (some ⟨call, s.log.length, .start⟩)
    log := s.log ++ [.invoked t call] }

/-- Strings of at most 255 bytes. -/
def Call.Short : Call → Prop
  | query key => key.length < maxLen
  | add key value => key.length < maxLen ∧ value.length < maxLen
  | remove key => key.length < maxLen

instance (call : Call) : Decidable call.Short :=
  match call with
  | .query key => inferInstanceAs (Decidable (key.length < maxLen))
  | .add key value => inferInstanceAs (Decidable (key.length < maxLen ∧ value.length < maxLen))
  | .remove key => inferInstanceAs (Decidable (key.length < maxLen))

inductive Action where
  | invoke (thread : Nat) (call : Call)
  | advance (thread : Nat)

/-- `none` when the action is not possible in the state. -/
def System.act (s : System) : Action → Except Fault (Option System)
  | .invoke t call => return if (s.threads t).isNone ∧ call.Short then some (s.invoke t call) else none
  | .advance t => s.advance t

/-- The states of the runs in which every step satisfies `ok`. -/
def Interleaving (ok : System → Action → Prop) : System → Prop := Transition.Reachable System.act System.initial ok

/-! ### The unlocked walk of `db_remove` -/

/-- The nodes from `a` along `lchild`. -/
def chainOf (nodes : NodeId → Option Node) : Nat → Option NodeId → List NodeId
  | 0, _ => []
  | _ + 1, none => []
  | rounds + 1, some a =>
    match nodes a with
    | some v => a :: chainOf nodes rounds v.lchild
    | none => [a]

/-- When a thread is about to remove a node with two children, no other thread has a lock on a
node of the chain from its right child to its successor. -/
def ClearFor (s : System) (t : Nat) : Prop :=
  match s.threads t with
  | some ⟨.remove key, _, .compare _ d⟩ =>
    match s.store.nodes d with
    | some v => v.key = key → v.lchild ≠ none → v.rchild ≠ none →
        ∀ a ∈ chainOf s.store.nodes s.store.fresh v.rchild, ∀ holder ∈ s.holders a, holder.1 = t
    | none => True
  | _ => True

instance (s : System) (t : Nat) : Decidable (ClearFor s t) := by
  unfold ClearFor
  split
  · split
    · infer_instance
    · infer_instance
  · infer_instance

def Clear (s : System) : Action → Prop
  | .invoke _ _ => True
  | .advance t => ClearFor s t

instance (s : System) (action : Action) : Decidable (Clear s action) :=
  match action with
  | .invoke _ _ => isTrue trivial
  | .advance t => inferInstanceAs (Decidable (ClearFor s t))

end Cs1330.Db
