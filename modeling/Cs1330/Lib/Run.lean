import Mathlib.Order.Defs.Unbundled

/-!
# Runs of programs with state and exceptions

A program over `StateT σ (Except ε)` either stops with an exception or returns a value and the
state behind it. `Keeps R x` says that the states before and behind every run of `x` that returns
are related by `R`; for a reflexive and transitive `R` this is closed under sequencing. `Simulates`
compares two programs whose states are not the same.
-/

namespace Run

variable {σ ε α β : Type} {s s' s'' : σ}

/-- A sequence that succeeds is the success of both its parts. -/
theorem except_bind {x : Except ε α} {f : α → Except ε β} {b : β} (run : x >>= f = .ok b) :
    ∃ a, x = .ok a ∧ f a = .ok b := by
  cases x with
  | error e => cases run
  | ok a => exact ⟨a, rfl, run⟩

theorem bind {x : StateT σ (Except ε) α} {f : α → StateT σ (Except ε) β} {b : β}
    (run : (x >>= f) s = .ok (b, s'')) : ∃ a s', x s = .ok (a, s') ∧ f a s' = .ok (b, s'') := by
  obtain ⟨result, first, rest⟩ := except_bind run
  exact ⟨result.1, result.2, first, rest⟩

theorem except_map {x : Except ε α} {f : α → β} {b : β} (seen : x.map f = .ok b) : ∃ a, x = .ok a ∧ f a = b := by
  cases x with
  | error e => cases seen
  | ok a => exact ⟨a, rfl, Except.ok.inj seen⟩

theorem pure {a b : α} (run : (Pure.pure a : StateT σ (Except ε) α) s = .ok (b, s')) : b = a ∧ s' = s := by
  cases run
  exact ⟨rfl, rfl⟩

theorem except_seq {x : Except ε α} {f : α → Except ε β} {a : α} (run : x = .ok a) : x >>= f = f a := by
  rw [run]
  rfl

theorem seq {x : StateT σ (Except ε) α} {f : α → StateT σ (Except ε) β} {a : α} (run : x s = .ok (a, s')) :
    (x >>= f) s = f a s' :=
  except_seq run

theorem seq_get {f : σ → StateT σ (Except ε) β} : ((get : StateT σ (Except ε) σ) >>= f) s = f s s := rfl

theorem seq_error {x : StateT σ (Except ε) α} {f : α → StateT σ (Except ε) β} {e : ε} (run : x s = .error e) :
    (x >>= f) s = .error e := by
  show Except.bind (x s) _ = _
  rw [run]
  rfl

/-- A sequence stops in one of its parts. -/
theorem bind_error {x : StateT σ (Except ε) α} {f : α → StateT σ (Except ε) β} {e : ε} (run : (x >>= f) s = .error e) :
    x s = .error e ∨ ∃ a s', x s = .ok (a, s') ∧ f a s' = .error e := by
  cases ran : x s with
  | error e' => exact Or.inl (congrArg _ (Except.error.inj ((seq_error ran).symm.trans run)))
  | ok result => exact Or.inr ⟨result.1, result.2, rfl, (seq ran).symm.trans run⟩

def Keeps (R : σ → σ → Prop) (x : StateT σ (Except ε) α) : Prop := ∀ ⦃s a s'⦄, x s = .ok (a, s') → R s s'

namespace Keeps

variable {R : σ → σ → Prop} {x : StateT σ (Except ε) α}

theorem of_pure [Std.Refl R] (a : α) : Keeps R (Pure.pure a : StateT σ (Except ε) α) := by
  intro s b s' run
  obtain ⟨-, rfl⟩ := pure run
  exact refl_of R _

theorem of_get [Std.Refl R] : Keeps R (get : StateT σ (Except ε) σ) := by
  intro s a s' run
  cases run
  exact refl_of R _

theorem of_throw (e : ε) : Keeps R (throw e : StateT σ (Except ε) α) := by
  intro s a s' run
  cases run

theorem of_modify {f : σ → σ} (related : ∀ s, R s (f s)) : Keeps R (modify f : StateT σ (Except ε) PUnit) := by
  intro s a s' run
  cases run
  exact related s

theorem bind [IsTrans σ R] {f : α → StateT σ (Except ε) β} (first : Keeps R x) (second : ∀ a, Keeps R (f a)) :
    Keeps R (x >>= f) := by
  intro s b s'' run
  obtain ⟨a, s', run, rest⟩ := Run.bind run
  exact trans_of R (first run) (second a rest)

theorem forM [Std.Refl R] [IsTrans σ R] {xs : List β} {f : β → StateT σ (Except ε) PUnit}
    (each : ∀ x, Keeps R (f x)) : Keeps R (xs.forM f) := by
  induction xs with
  | nil => exact of_pure _
  | cons x xs ih => exact (each x).bind fun _ => ih

end Keeps

/-- Every exception that `x` can stop with satisfies `E`. -/
def Stops (E : ε → Prop) (x : StateT σ (Except ε) α) : Prop := ∀ ⦃s e⦄, x s = .error e → E e

namespace Stops

variable {E : ε → Prop} {x : StateT σ (Except ε) α}

theorem of_pure (a : α) : Stops E (Pure.pure a : StateT σ (Except ε) α) := by
  intro s e run
  cases run

theorem of_get : Stops E (get : StateT σ (Except ε) σ) := by
  intro s e run
  cases run

theorem of_modify (f : σ → σ) : Stops E (modify f : StateT σ (Except ε) PUnit) := by
  intro s e run
  cases run

theorem bind {f : α → StateT σ (Except ε) β} (first : Stops E x) (second : ∀ a, Stops E (f a)) : Stops E (x >>= f) := by
  intro s e run
  cases ran : x s with
  | error e' =>
    obtain rfl := Except.error.inj ((seq_error ran).symm.trans run)
    exact first ran
  | ok result => exact second result.1 ((seq (a := result.1) ran).symm.trans run)

theorem forM {xs : List β} {f : β → StateT σ (Except ε) PUnit} (each : ∀ x, Stops E (f x)) : Stops E (xs.forM f) := by
  induction xs with
  | nil => exact of_pure _
  | cons x xs ih => exact (each x).bind fun _ => ih

end Stops

/-- Every run of `x` in a state of `I` is a run of `y` on what `view` leaves of the state, with the same
result or the corresponding exception, and stays in `I`. -/
structure Simulates {τ δ : Type} (view : σ → τ) (stopped : ε → δ) (I : σ → Prop) (x : StateT σ (Except ε) α)
    (y : StateT τ (Except δ) α) : Prop where
  returns : ∀ ⦃s a s'⦄, I s → x s = .ok (a, s') → y (view s) = .ok (a, view s') ∧ I s'
  stops : ∀ ⦃s e⦄, I s → x s = .error e → y (view s) = .error (stopped e)

namespace Simulates

variable {τ δ : Type} {view : σ → τ} {stopped : ε → δ} {I : σ → Prop} {x : StateT σ (Except ε) α}
  {y : StateT τ (Except δ) α}

theorem of_pure (a : α) : Simulates view stopped I (Pure.pure a) (Pure.pure a) := by
  constructor
  · intro s b s' holds run
    obtain ⟨rfl, rfl⟩ := pure run
    exact ⟨rfl, holds⟩
  · intro s e holds run
    cases run

theorem of_throw {e : ε} {d : δ} (same : stopped e = d) :
    Simulates view stopped I (throw e : StateT σ (Except ε) α) (throw d) := by
  constructor
  · intro s a s' holds run
    cases run
  · intro s e' holds run
    cases run
    rw [same]
    rfl

theorem of_modify {f : σ → σ} {g : τ → τ} (related : ∀ s, view (f s) = g (view s)) (keeps : ∀ s, I s → I (f s)) :
    Simulates view stopped I (modify f) (modify g) := by
  constructor
  · intro s a s' holds run
    cases run
    refine ⟨?_, keeps s holds⟩
    rw [related]
    rfl
  · intro s e holds run
    cases run

/-- A change that cannot be seen. -/
theorem of_unseen {f : σ → σ} (unseen : ∀ s, I s → view (f s) = view s) (keeps : ∀ s, I s → I (f s)) :
    Simulates view stopped I (modify f) (Pure.pure PUnit.unit) := by
  constructor
  · intro s a s' holds run
    cases run
    refine ⟨?_, keeps s holds⟩
    rw [unseen s holds]
    rfl
  · intro s e holds run
    cases run

/-- What a program does may be decided in the state it starts from. -/
theorem of_each (each : ∀ s, I s → ∃ (x' : StateT σ (Except ε) α) (y' : StateT τ (Except δ) α),
    x s = x' s ∧ y (view s) = y' (view s) ∧ Simulates view stopped I x' y') : Simulates view stopped I x y := by
  constructor
  · intro s a s' holds run
    obtain ⟨x', y', same, same', simulates⟩ := each s holds
    rw [same']
    exact simulates.returns holds (same.symm.trans run)
  · intro s e holds run
    obtain ⟨x', y', same, same', simulates⟩ := each s holds
    rw [same']
    exact simulates.stops holds (same.symm.trans run)

theorem bind {f : α → StateT σ (Except ε) β} {g : α → StateT τ (Except δ) β} (first : Simulates view stopped I x y)
    (second : ∀ a, Simulates view stopped I (f a) (g a)) : Simulates view stopped I (x >>= f) (y >>= g) := by
  constructor
  · intro s b s'' holds run
    obtain ⟨a, s', run, rest⟩ := Run.bind run
    obtain ⟨run, holds⟩ := first.returns holds run
    obtain ⟨rest, holds⟩ := (second a).returns holds rest
    exact ⟨(seq run).trans rest, holds⟩
  · intro s e holds run
    rcases bind_error run with run | ⟨a, s', run, rest⟩
    · exact seq_error (first.stops holds run)
    · obtain ⟨run, holds⟩ := first.returns holds run
      exact (seq run).trans ((second a).stops holds rest)

/-- A first part that cannot be seen. -/
theorem before {x : StateT σ (Except ε) PUnit} {f : PUnit → StateT σ (Except ε) β} {z : StateT τ (Except δ) β}
    (first : Simulates view stopped I x (Pure.pure PUnit.unit)) (second : Simulates view stopped I (f PUnit.unit) z) :
    Simulates view stopped I (x >>= f) z :=
  bind (g := fun _ => z) first fun _ => second

/-- A last part that cannot be seen. -/
theorem after {x : StateT σ (Except ε) PUnit} {y : StateT τ (Except δ) PUnit} {f : PUnit → StateT σ (Except ε) PUnit}
    (first : Simulates view stopped I x y) (second : Simulates view stopped I (f PUnit.unit) (Pure.pure PUnit.unit)) :
    Simulates view stopped I (x >>= f) y := by
  have both := bind (g := fun _ => Pure.pure PUnit.unit) first fun _ => second
  rwa [bind_pure_unit] at both

theorem forM {xs : List β} {f : β → StateT σ (Except ε) PUnit} {g : β → StateT τ (Except δ) PUnit}
    (each : ∀ x ∈ xs, Simulates view stopped I (f x) (g x)) : Simulates view stopped I (xs.forM f) (xs.forM g) := by
  induction xs with
  | nil => exact of_pure _
  | cons x xs ih => exact (each x List.mem_cons_self).bind fun _ => ih fun x member => each x (List.mem_cons_of_mem _ member)

end Simulates

/-- A run either stops with one of these exceptions or returns. -/
theorem Stops.returns {E : ε → Prop} {x : StateT σ (Except ε) α} (stops : Stops E x) (s : σ) :
    (∃ a s', x s = .ok (a, s')) ∨ ∃ e, x s = .error e ∧ E e := by
  cases ran : x s with
  | error e => exact Or.inr ⟨e, rfl, stops ran⟩
  | ok result => exact Or.inl ⟨result.1, result.2, rfl⟩

end Run
