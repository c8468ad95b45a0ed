import Mathlib.Logic.Relation
import Mathlib.Tactic.Common

/-!
# Transition systems

A system takes actions; a step may fault, or not be possible. Runs are restricted by a condition
on each step and the state before it, and a schedule is a list of actions to be taken in turn.
-/

namespace Transition

variable {σ α ε : Type}

/-- The states of the runs from `initial` in which every step satisfies `ok`. -/
inductive Reachable (step : σ → α → Except ε (Option σ)) (initial : σ) (ok : σ → α → Prop) : σ → Prop
  | initial : Reachable step initial ok initial
  | step {s s' : σ} (action : α) : Reachable step initial ok s → ok s action → step s action = .ok (some s') →
      Reachable step initial ok s'

variable {step : σ → α → Except ε (Option σ)} {initial : σ} {ok : σ → α → Prop}

/-- What holds at the start and is kept by every step holds in every state. -/
theorem Reachable.invariant {P : σ → Prop} {s : σ} (reachable : Reachable step initial ok s) (start : P initial)
    (keeps : ∀ s s' action, P s → ok s action → step s action = .ok (some s') → P s') : P s := by
  induction reachable with
  | initial => exact start
  | step action _ allowed run ih => exact keeps _ _ action ih allowed run

/-- Follow a schedule, as long as each of its actions is possible. -/
def follow (step : σ → α → Except ε (Option σ)) (ok : σ → α → Prop) [∀ s action, Decidable (ok s action)] :
    List α → σ → Option σ
  | [], s => some s
  | action :: rest, s =>
    if ok s action then
      match step s action with
      | .ok (some s') => follow step ok rest s'
      | _ => none
    else none

theorem follow_reachable [∀ s action, Decidable (ok s action)] {actions : List α} :
    ∀ {s s' : σ}, Reachable step initial ok s → follow step ok actions s = some s' → Reachable step initial ok s' := by
  induction actions with
  | nil =>
    intro s s' reachable found
    obtain rfl := Option.some.inj found
    exact reachable
  | cons action rest ih =>
    intro s s' reachable found
    unfold follow at found
    by_cases possible : ok s action
    · rw [if_pos possible] at found
      split at found
      · rename_i next moved
        exact ih (reachable.step action possible moved) found
      · cases found
    · rw [if_neg possible] at found
      cases found

theorem follow_cons [∀ s action, Decidable (ok s action)] {s s' : σ} {action : α} {rest : List α} :
    follow step ok (action :: rest) s = some s' ↔
      ∃ next, ok s action ∧ step s action = .ok (some next) ∧ follow step ok rest next = some s' := by
  rw [follow]
  constructor
  · intro found
    split at found
    · rename_i possible
      split at found
      · rename_i next moved
        exact ⟨next, possible, moved, found⟩
      · cases found
    · cases found
  · rintro ⟨next, possible, moved, found⟩
    rw [if_pos possible, moved]
    exact found

/-- When the actions of a schedule lower a bound, it has at most as many as the bound allows. -/
theorem follow_bound [∀ s action, Decidable (ok s action)] {within : σ → Nat → Prop} {lowering : α → Prop}
    (lowers : ∀ s s' action n, lowering action → within s n → ok s action → step s action = .ok (some s') →
      ∃ m < n, within s' m) {actions : List α} :
    ∀ {s s' : σ} {n : Nat}, (∀ action ∈ actions, lowering action) → within s n → follow step ok actions s = some s' →
      ∃ m, within s' m ∧ actions.length + m ≤ n := by
  induction actions with
  | nil =>
    intro s s' n _ bound found
    obtain rfl := Option.some.inj found
    exact ⟨n, bound, by simp⟩
  | cons action rest ih =>
    intro s s' n all bound found
    obtain ⟨next, possible, moved, found⟩ := follow_cons.mp found
    obtain ⟨m, less, bound⟩ := lowers s next action n (all action List.mem_cons_self) bound possible moved
    obtain ⟨left, bound, length⟩ := ih (fun a member => all a (List.mem_cons_of_mem _ member)) bound found
    refine ⟨left, bound, ?_⟩
    rw [List.length_cons]
    omega

/-- When every step decreases a size, a schedule is no longer than the size it starts from. -/
theorem follow_length [∀ s action, Decidable (ok s action)] {P : σ → Prop} {size : σ → Nat}
    (decreases : ∀ s s' action, P s → step s action = .ok (some s') → P s' ∧ size s' < size s) {actions : List α} :
    ∀ {s s' : σ}, P s → follow step ok actions s = some s' → actions.length ≤ size s := by
  induction actions with
  | nil =>
    intro s s' _ _
    exact Nat.zero_le _
  | cons action rest ih =>
    intro s s' holds found
    unfold follow at found
    by_cases possible : ok s action
    · rw [if_pos possible] at found
      split at found
      · rename_i next moved
        obtain ⟨kept, smaller⟩ := decreases s next action holds moved
        exact Nat.lt_of_le_of_lt (ih kept found) smaller
      · cases found
    · rw [if_neg possible] at found
      cases found

/-- Some schedule takes the system from the first state to the second. -/
def Leads (step : σ → α → Except ε (Option σ)) : σ → σ → Prop :=
  Relation.ReflTransGen fun s s' => ∃ action, step s action = .ok (some s')

theorem Leads.invariant {P : σ → Prop} {s s' : σ} (leads : Leads step s s') (holds : P s)
    (keeps : ∀ s s' action, P s → step s action = .ok (some s') → P s') : P s' := by
  induction leads with
  | refl => exact holds
  | tail _ taken ih =>
    obtain ⟨action, run⟩ := taken
    exact keeps _ _ action ih run

theorem Leads.reachable {s s' : σ} (leads : Leads step s s') (reachable : Reachable step initial (fun _ _ => True) s) :
    Reachable step initial (fun _ _ => True) s' :=
  leads.invariant reachable fun _ _ action reached run => reached.step action trivial run

/-- Each step of the first system is answered by steps of the second, perhaps by none, to a related state. -/
def Simulates {τ β φ : Type} (step : σ → α → Except ε (Option σ)) (step' : τ → β → Except φ (Option τ)) (R : σ → τ → Prop) :
    Prop :=
  ∀ s s' action t, R s t → step s action = .ok (some s') → ∃ t', Leads step' t t' ∧ R s' t'

/-- What the first system reaches is related to something the second one reaches. -/
theorem Simulates.reachable {τ β φ : Type} {step' : τ → β → Except φ (Option τ)} {R : σ → τ → Prop} {s : σ} {t : τ}
    (simulates : Simulates step step' R) (reachable : Reachable step initial ok s) (start : R initial t) :
    ∃ t', Leads step' t t' ∧ R s t' := by
  induction reachable with
  | initial => exact ⟨t, .refl, start⟩
  | step action _ _ run ih =>
    obtain ⟨t', leads, related⟩ := ih
    obtain ⟨t'', answer, related⟩ := simulates _ _ action t' related run
    exact ⟨t'', leads.trans answer, related⟩

/-- When from every state that keeps to `P` a step can be taken that keeps to it and lowers a size,
unless the goal is there, the goal can be reached. -/
theorem leads_of_progress {P goal : σ → Prop} {size : σ → Nat}
    (progress : ∀ s, P s → ¬goal s → ∃ action s', step s action = .ok (some s') ∧ P s' ∧ size s' < size s) {s : σ}
    (holds : P s) : ∃ s', Leads step s s' ∧ goal s' := by
  induction bound : size s using Nat.strongRecOn generalizing s with
  | ind n ih =>
    by_cases there : goal s
    · exact ⟨s, .refl, there⟩
    obtain ⟨action, next, run, kept, smaller⟩ := progress s holds there
    obtain ⟨s', leads, reached⟩ := ih (size next) (bound ▸ smaller) kept rfl
    exact ⟨s', .head ⟨action, run⟩ leads, reached⟩

end Transition
