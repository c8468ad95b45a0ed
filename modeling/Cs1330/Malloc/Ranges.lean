import Cs1330.Malloc.Driver

/-!
# The overlap check

`add_range` looks for a recorded range that contains an end of the new one. That misses one kind
of overlap: a recorded range strictly inside the new one.
-/

namespace Cs1330.Malloc

variable {d d' : Driver} {p q r : Range} {lo size tracenum opnum : Int}

/-! ### Relative positions of two ranges -/

/-- Some address lies in both. -/
def Range.Meets (p q : Range) : Prop := ∃ a, p.Contains a ∧ q.Contains a

def Range.Apart (p q : Range) : Prop := ¬p.Meets q

/-- Both ends of `p` lie strictly between those of `q`. -/
def Range.Within (p q : Range) : Prop := q.lo < p.lo ∧ p.hi < q.hi

theorem Range.meets_iff : p.Meets q ↔ p.lo ≤ q.hi ∧ q.lo ≤ p.hi := by
  have first := p.ordered
  have second := q.ordered
  constructor
  · rintro ⟨a, ⟨low, high⟩, low', high'⟩
    omega
  · intro ⟨left, right⟩
    by_cases starts : p.lo ≤ q.lo
    · exact ⟨q.lo, ⟨starts, right⟩, Int.le_refl _, second⟩
    · exact ⟨p.lo, ⟨Int.le_refl _, first⟩, by omega, left⟩

theorem Range.apart_iff : p.Apart q ↔ p.hi < q.lo ∨ q.hi < p.lo := by
  unfold Range.Apart
  rw [Range.meets_iff]
  omega

theorem Range.Apart.symm (apart : p.Apart q) : q.Apart p := by
  rw [Range.apart_iff] at apart ⊢
  exact apart.symm

/-- Two ranges meet when an end of the new one lies in the old one, or the old one lies within. -/
theorem Range.meets_cases : p.Meets r ↔ (p.Contains r.lo ∨ p.Contains r.hi) ∨ p.Within r := by
  have first := p.ordered
  have second := r.ordered
  rw [Range.meets_iff]
  unfold Range.Contains Range.Within
  omega

/-! ### What `add_range` does -/

/-- The range lies in `[mem_heap_lo, mem_heap_hi]`. -/
def Driver.Covers (d : Driver) (r : Range) : Prop := d.heap.memHeapLo ≤ r.lo ∧ r.hi ≤ d.heap.memHeapHi

/-- The test that `add_range` makes on each recorded range. -/
def Driver.Touches (d : Driver) (r : Range) : Prop := ∃ p ∈ d.ranges, p.Contains r.lo ∨ p.Contains r.hi

/-- An aligned range inside the heap that meets no recorded one. -/
structure Driver.Admits (d : Driver) (r : Range) : Prop where
  aligned : r.lo % 8 = 0
  covered : d.Covers r
  apart : ∀ p ∈ d.ranges, p.Apart r

theorem addRange_reports (tracenum opnum : Int) (positive : 0 < size)
    (refused : lo % 8 ≠ 0 ∨ ¬d.Covers (payloadRange lo size positive) ∨ d.Touches (payloadRange lo size positive)) :
    ∃ report, addRange lo size tracenum opnum d = .ok (0, { d with errors := d.errors ++ [report] }) := by
  unfold addRange
  rw [if_neg (by omega), dif_pos positive, Run.seq_get]
  by_cases misaligned : lo % alignment ≠ 0
  · rw [if_pos misaligned]
    exact ⟨_, rfl⟩
  rw [if_neg misaligned]
  have ordered := (payloadRange lo size positive).ordered
  have start : (payloadRange lo size positive).lo = lo := rfl
  by_cases outside : lo < d.heap.memHeapLo ∨ lo > d.heap.memHeapHi ∨
      (payloadRange lo size positive).hi < d.heap.memHeapLo ∨ (payloadRange lo size positive).hi > d.heap.memHeapHi
  · rw [if_pos outside]
    exact ⟨_, rfl⟩
  rw [if_neg outside]
  have touches : d.Touches (payloadRange lo size positive) := by
    rcases refused with wrong | uncovered | touches
    · exact (misaligned wrong).elim
    · exact (uncovered ⟨by omega, by omega⟩).elim
    · exact touches
  obtain ⟨p, member, contains⟩ := touches
  cases found : d.ranges.find? fun p => decide (p.Contains lo ∨ p.Contains (payloadRange lo size positive).hi) with
  | some q => exact ⟨_, rfl⟩
  | none =>
    have missed := List.find?_eq_none.mp found p member
    simp only [decide_eq_true_eq] at missed
    exact (missed contains).elim

theorem addRange_records (tracenum opnum : Int) (positive : 0 < size) (aligned : lo % 8 = 0)
    (covered : d.Covers (payloadRange lo size positive)) (untouched : ¬d.Touches (payloadRange lo size positive)) :
    addRange lo size tracenum opnum d = .ok (1, { d with ranges := payloadRange lo size positive :: d.ranges }) := by
  have ordered := (payloadRange lo size positive).ordered
  have start : (payloadRange lo size positive).lo = lo := rfl
  obtain ⟨low, high⟩ := covered
  have none : d.ranges.find? (fun p => decide (p.Contains lo ∨ p.Contains (payloadRange lo size positive).hi)) = none := by
    apply List.find?_eq_none.mpr
    intro p member contains
    exact untouched ⟨p, member, of_decide_eq_true contains⟩
  unfold addRange
  rw [if_neg (by omega), dif_pos positive, Run.seq_get,
    if_neg (show ¬lo % alignment ≠ 0 from not_not.mpr aligned),
    if_neg (by omega), none]
  rfl

/-! ### Exactness -/

/-- `add_range` records the range if it is to be admitted, and else leaves the list as it is. -/
def Driver.Exact (d : Driver) (lo size tracenum opnum : Int) (positive : 0 < size) : Prop :=
  ∃ result d', addRange lo size tracenum opnum d = .ok (result, d') ∧
    (d.Admits (payloadRange lo size positive) → result = 1 ∧ d'.ranges = payloadRange lo size positive :: d.ranges) ∧
    (¬d.Admits (payloadRange lo size positive) → result = 0 ∧ d'.ranges = d.ranges)

/-- The alignment, the bounds or an end of the range decide, or no recorded range lies within it. -/
def Driver.EndsDecide (d : Driver) (r : Range) : Prop :=
  r.lo % 8 ≠ 0 ∨ ¬d.Covers r ∨ d.Touches r ∨ ∀ p ∈ d.ranges, ¬p.Within r

theorem addRange_exact (positive : 0 < size) :
    d.Exact lo size tracenum opnum positive ↔ d.EndsDecide (payloadRange lo size positive) := by
  by_cases refused : lo % 8 ≠ 0 ∨ ¬d.Covers (payloadRange lo size positive) ∨ d.Touches (payloadRange lo size positive)
  · obtain ⟨report, run⟩ := addRange_reports tracenum opnum positive refused
    refine iff_of_true ⟨0, _, run, ?_, fun _ => ⟨rfl, rfl⟩⟩ ?_
    · intro admitted
      rcases refused with wrong | uncovered | ⟨p, member, contains⟩
      · exact (wrong admitted.aligned).elim
      · exact (uncovered admitted.covered).elim
      · exact (admitted.apart p member (Range.meets_cases.mpr (Or.inl contains))).elim
    · exact refused.imp_right (Or.imp_right Or.inl)
  obtain ⟨aligned, covered, untouched⟩ : lo % 8 = 0 ∧ d.Covers (payloadRange lo size positive) ∧
      ¬d.Touches (payloadRange lo size positive) := by tauto
  have run := addRange_records tracenum opnum positive aligned covered untouched
  have longer : payloadRange lo size positive :: d.ranges ≠ d.ranges := List.cons_ne_self _ _
  constructor
  · rintro ⟨result, d', run', _, refuses⟩
    obtain ⟨rfl, rfl⟩ := Prod.mk.inj (Except.ok.inj (run.symm.trans run'))
    have admitted : d.Admits (payloadRange lo size positive) := by
      by_contra other
      exact longer (refuses other).2
    refine Or.inr (Or.inr (Or.inr ?_))
    intro p member within
    exact admitted.apart p member (Range.meets_cases.mpr (Or.inr within))
  · intro decides
    have none : ∀ p ∈ d.ranges, ¬p.Within (payloadRange lo size positive) := by
      rcases decides with wrong | uncovered | touches | none
      · exact (wrong aligned).elim
      · exact (uncovered covered).elim
      · exact (untouched touches).elim
      · exact none
    have admitted : d.Admits (payloadRange lo size positive) := by
      refine ⟨aligned, covered, ?_⟩
      intro p member meets
      rcases Range.meets_cases.mp meets with contains | within
      · exact untouched ⟨p, member, contains⟩
      · exact none p member within
    exact ⟨1, _, run, fun _ => ⟨rfl, rfl⟩, fun other => (other admitted).elim⟩

/-! ### Runs -/

/-- The states of the runs of `add_range` and `remove_range` from an empty list, in which every
call of `add_range` satisfies `ok`; anything else may happen to the heap in between. -/
inductive Recorded (ok : Driver → Int → Int → Prop) : Driver → Prop
  | empty {d : Driver} : d.ranges = [] → Recorded ok d
  | add {d d' : Driver} {lo size tracenum opnum result : Int} : Recorded ok d → ok d lo size →
      addRange lo size tracenum opnum d = .ok (result, d') → Recorded ok d'
  | remove {d d' : Driver} {lo : Int} : Recorded ok d → removeRange lo d = .ok ((), d') → Recorded ok d'
  | other {d d' : Driver} : Recorded ok d → d'.ranges = d.ranges → Recorded ok d'

theorem addRange_apart {result : Int} (apart : d.ranges.Pairwise Range.Apart)
    (decides : ∀ positive : 0 < size, d.EndsDecide (payloadRange lo size positive))
    (run : addRange lo size tracenum opnum d = .ok (result, d')) : d'.ranges.Pairwise Range.Apart := by
  by_cases positive : 0 < size
  · obtain ⟨result', d'', run', admits, refuses⟩ := (addRange_exact positive).mpr (decides positive)
    obtain ⟨rfl, rfl⟩ := Prod.mk.inj (Except.ok.inj (run'.symm.trans run))
    by_cases admitted : d.Admits (payloadRange lo size positive)
    · rw [(admits admitted).2]
      exact List.Pairwise.cons (fun p member => (admitted.apart p member).symm) apart
    · rw [(refuses admitted).2]
      exact apart
  · unfold addRange at run
    by_cases zero : size = 0
    · rw [if_pos zero] at run
      obtain ⟨-, rfl⟩ := Run.pure run
      exact apart
    · rw [if_neg zero, dif_neg positive] at run
      cases run

/-- `add_range` is exact when its test of the two ends decides, and where it always does the
recorded ranges never meet. -/
theorem addRange_exact_iff (d : Driver) (lo size tracenum opnum : Int) (positive : 0 < size) :
    (d.Exact lo size tracenum opnum positive ↔ d.EndsDecide (payloadRange lo size positive)) ∧
      (Recorded (fun d lo size => ∀ positive : 0 < size, d.EndsDecide (payloadRange lo size positive)) d →
        d.ranges.Pairwise Range.Apart) := by
  refine ⟨addRange_exact positive, ?_⟩
  intro recorded
  induction recorded with
  | empty none =>
    rw [none]
    exact List.Pairwise.nil
  | add _ decides run ih => exact addRange_apart ih decides run
  | remove _ run ih =>
    cases run
    exact ih.sublist List.eraseP_sublist
  | other _ same ih =>
    rw [same]
    exact ih

/-- A heap of 64 bytes at address 8. -/
def smallDriver (ranges : List Range) : Driver := ⟨⟨fun _ => 0, 8, 72, 72, 0, 0, 0⟩, ranges, [], []⟩

theorem addRange_exact_apart : (smallDriver [⟨16, 23, by decide⟩]).Exact 24 8 0 0 (by decide) ∧
    (smallDriver [⟨24, 31, by decide⟩, ⟨16, 23, by decide⟩]).ranges.Pairwise Range.Apart := by
  have first : Recorded (fun d lo size => ∀ positive : 0 < size, d.EndsDecide (payloadRange lo size positive))
      (smallDriver []) := .empty rfl
  have added : addRange 16 8 0 0 (smallDriver []) = .ok (1, smallDriver [⟨16, 23, by decide⟩]) := rfl
  have second := first.add (fun _ => Or.inr (Or.inr (Or.inr (by simp [smallDriver])))) added
  have decides : (smallDriver [⟨16, 23, by decide⟩]).EndsDecide (payloadRange 24 8 (by decide)) := by
    refine Or.inr (Or.inr (Or.inr ?_))
    intro p member within
    obtain rfl := List.mem_singleton.mp member
    exact absurd within.1 (by decide)
  have addedNext : addRange 24 8 0 0 (smallDriver [⟨16, 23, by decide⟩]) =
      .ok (1, smallDriver [⟨24, 31, by decide⟩, ⟨16, 23, by decide⟩]) := rfl
  have third := second.add (fun _ => decides) addedNext
  exact ⟨(addRange_exact_iff _ 24 8 0 0 (by decide)).1.mpr decides, (addRange_exact_iff _ 0 8 0 0 (by decide)).2 third⟩

/-- The range `[8, 31]` is recorded beside `[16, 23]`. -/
theorem surrounding_recorded : ¬∀ (d : Driver) (lo size tracenum opnum : Int) (positive : 0 < size),
    d.Exact lo size tracenum opnum positive := by
  intro exact
  rcases (addRange_exact (by decide)).mp (exact (smallDriver [⟨16, 23, by decide⟩]) 8 24 0 0 (by decide)) with
    wrong | uncovered | ⟨p, member, contains⟩ | none
  · exact wrong (by decide)
  · exact uncovered ⟨by decide, by decide⟩
  · obtain rfl := List.mem_singleton.mp member
    exact absurd contains (by decide)
  · exact none _ (List.mem_singleton.mpr rfl) ⟨by decide, by decide⟩

end Cs1330.Malloc
