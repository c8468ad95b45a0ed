import Mathlib.Order.Bounds.Basic
import Mathlib.Tactic.Common

/-!
# Conditions along a trace

An observer reads a trace of events and keeps a state. `Along observe P s trace` says that each
event satisfies `P` in the state that the observer has reached when the event comes.
-/

namespace Trace

variable {σ α : Type} {observe : σ → α → σ} {P Q : σ → α → Prop} {s : σ} {xs ys : List α}

def Along (observe : σ → α → σ) (P : σ → α → Prop) : σ → List α → Prop
  | _, [] => True
  | s, e :: rest => P s e ∧ Along observe P (observe s e) rest

theorem along_append :
    Along observe P s (xs ++ ys) ↔ Along observe P s xs ∧ Along observe P (xs.foldl observe s) ys := by
  induction xs generalizing s with
  | nil => simp [Along]
  | cons e xs ih =>
    rw [List.cons_append, Along, Along, ih, and_assoc]
    rfl

theorem Along.at {e : α} (along : Along observe P s (xs ++ e :: ys)) : P (xs.foldl observe s) e :=
  (along_append.mp along).2.1

theorem Along.imp (along : Along observe P s xs) (weaker : ∀ s, ∀ e ∈ xs, P s e → Q s e) : Along observe Q s xs := by
  induction xs generalizing s with
  | nil => trivial
  | cons e xs ih =>
    obtain ⟨now, later⟩ := along
    exact ⟨weaker s e List.mem_cons_self now, ih later fun s e member => weaker s e (List.mem_cons_of_mem _ member)⟩

/-- The observer that keeps all it has seen. -/
def record (past : List α) (e : α) : List α := past ++ [e]

theorem foldl_record (past xs : List α) : xs.foldl record past = past ++ xs := by
  induction xs generalizing past with
  | nil => simp
  | cons e xs ih => rw [List.foldl_cons, ih, record, List.append_assoc, List.singleton_append]

/-! ### Interleaved traces

One party makes its calls in their order, and others make theirs in between. `own` tells the calls of
the first party from those of the others, and `allowed` says what can happen when.
-/

section Interleaved

variable {ε : Type} (watch : σ → ε → σ) (allowed : σ → ε → Prop) (own : ε → Option α) (R : σ → α → Prop)

/-- The others keep `I`. -/
def Stable (I : σ → Prop) : Prop := ∀ s e, own e = none → allowed s e → I s → I (watch s e)

/-- Whatever the others do before, between and behind these calls, each of them satisfies `R`, and they
lead from a state of `I` to one of `J`. -/
def Guides (I : σ → Prop) (calls : List α) (J : σ → Prop) : Prop :=
  ∀ s events, events.filterMap own = calls → Along watch allowed s events → I s →
    Along watch (fun s e => ∀ call ∈ own e, R s call) s events ∧ J (events.foldl watch s)

variable {watch allowed own R} {I J K : σ → Prop} {calls more : List α} {call : α}

theorem guides_nil (stable : Stable watch allowed own I) : Guides watch allowed own R I [] I := by
  intro s events
  induction events generalizing s with
  | nil => exact fun _ _ holds => ⟨trivial, holds⟩
  | cons e events ih =>
    intro none along holds
    rw [List.filterMap_eq_nil_iff] at none
    have foreign : own e = .none := none e List.mem_cons_self
    have others : events.filterMap own = [] :=
      List.filterMap_eq_nil_iff.mpr fun e member => none e (List.mem_cons_of_mem _ member)
    obtain ⟨rest, last⟩ := ih (watch s e) others along.2 (stable s e foreign along.1 holds)
    refine ⟨⟨?_, rest⟩, last⟩
    intro call mine
    rw [foreign] at mine
    cases mine

theorem Guides.append (first : Guides watch allowed own R I calls J) (second : Guides watch allowed own R J more K) :
    Guides watch allowed own R I (calls ++ more) K := by
  intro s events same along holds
  obtain ⟨front, back, rfl, mine, rest⟩ := List.filterMap_eq_append_iff.mp same
  obtain ⟨along, along'⟩ := along_append.mp along
  obtain ⟨done, between⟩ := first s front mine along holds
  obtain ⟨done', last⟩ := second _ back rest along' between
  exact ⟨along_append.mpr ⟨done, done'⟩, by rwa [List.foldl_append]⟩

/-- One call. -/
theorem guides_call (stable : Stable watch allowed own I) (stable' : Stable watch allowed own J)
    (step : ∀ s e, own e = some call → allowed s e → I s → R s call ∧ J (watch s e)) :
    Guides watch allowed own R I [call] J := by
  intro s events same along holds
  obtain ⟨front, e, back, rfl, others, mine, rest⟩ := List.filterMap_eq_cons_iff.mp same
  obtain ⟨along, now, along'⟩ := along_append.mp along
  have quiet : front.filterMap own = [] := List.filterMap_eq_nil_iff.mpr others
  obtain ⟨before, held⟩ := guides_nil (R := R) stable s front quiet along holds
  obtain ⟨does, next⟩ := step _ e mine now held
  obtain ⟨after, last⟩ := guides_nil (R := R) stable' _ back rest along' next
  refine ⟨along_append.mpr ⟨before, ?_, after⟩, by rwa [List.foldl_append]⟩
  intro other same
  obtain rfl := Option.some.inj (mine.symm.trans same)
  exact does

/-- Calls that each keep `I`. -/
theorem guides_self (stable : Stable watch allowed own I)
    (each : ∀ call ∈ calls, ∀ s e, own e = some call → allowed s e → I s → R s call ∧ I (watch s e)) :
    Guides watch allowed own R I calls I := by
  induction calls with
  | nil => exact guides_nil stable
  | cons call calls ih =>
    have first := guides_call stable stable (each call List.mem_cons_self)
    exact first.append (ih fun call member => each call (List.mem_cons_of_mem _ member))

end Interleaved

/-! ### High-water marks -/

variable {β : Type} [LinearOrder β] {f : List α → β} {m : β}

/-- The most that `f` comes to on the way through the trace. -/
def IsPeak (f : List α → β) (xs : List α) (m : β) : Prop := IsGreatest {y | ∃ ys, ys <+: xs ∧ f ys = y} m

theorem isPeak_nil (f : List α → β) : IsPeak f [] (f []) := by
  refine ⟨⟨[], List.prefix_refl _, rfl⟩, ?_⟩
  rintro y ⟨ys, before, rfl⟩
  rw [List.prefix_nil.mp before]

theorem IsPeak.snoc (peak : IsPeak f xs m) (x : α) : IsPeak f (xs ++ [x]) (max m (f (xs ++ [x]))) := by
  obtain ⟨⟨top, before, rfl⟩, most⟩ := peak
  constructor
  · rcases le_total (f top) (f (xs ++ [x])) with less | more
    · exact ⟨xs ++ [x], List.prefix_refl _, (max_eq_right less).symm⟩
    · exact ⟨top, before.trans (List.prefix_append _ _), (max_eq_left more).symm⟩
  · rintro y ⟨ys, before, rfl⟩
    rcases List.prefix_concat_iff.mp before with rfl | earlier
    · exact le_max_right _ _
    · exact (most ⟨ys, earlier, rfl⟩).trans (le_max_left _ _)

end Trace
