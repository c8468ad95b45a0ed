import Mathlib.Data.List.Nodup

/-!
# A cursor in a list that changes

A list with a cursor is split into the elements that the cursor has passed and those ahead of
it. Elements are added and removed while the cursor moves. `Covers old label seen c` says what
has been seen since the list was `old` and the cursor stood at its head: of the old elements
that are still there, exactly the passed ones, each once and in order.
-/

structure Cursor (α : Type) where
  passed : List α
  ahead : List α

namespace Cursor

variable {α β : Type} {c : Cursor α} {x : α} {old : List α} {label : α → β} {seen : List β}

def elements (c : Cursor α) : List α := c.passed ++ c.ahead

/-- Add an element at the end; the first element of an empty list is ahead of the cursor, but
an element added behind a cursor at the end is not. -/
def add (c : Cursor α) (x : α) : Cursor α :=
  match c.passed, c.ahead with
  | [], [] => ⟨[], [x]⟩
  | passed, [] => ⟨passed ++ [x], []⟩
  | passed, ahead => ⟨passed, ahead ++ [x]⟩

theorem elements_add (c : Cursor α) (x : α) : (c.add x).elements = c.elements ++ [x] := by
  obtain ⟨passed, ahead⟩ := c
  cases passed <;> cases ahead <;> simp [add, elements]

variable [DecidableEq α] [DecidableEq β]

def erase (c : Cursor α) (x : α) : Cursor α := ⟨c.passed.erase x, c.ahead.erase x⟩

/-- The elements that were there at the start and still are. -/
def surviving (old : List α) (xs : List α) : List α := xs.filter fun x => decide (x ∈ old)

structure Covers (old : List α) (label : α → β) (seen : List β) (c : Cursor α) : Prop where
  order : (surviving old c.elements).Sublist old
  seen : (seen.filter fun b => decide (b ∈ (surviving old c.elements).map label)) = (surviving old c.passed).map label

theorem surviving_append (xs ys : List α) : surviving old (xs ++ ys) = surviving old xs ++ surviving old ys :=
  List.filter_append _ _

theorem Covers.start (xs : List α) (label : α → β) : Covers xs label [] ⟨[], xs⟩ := by
  refine ⟨?_, rfl⟩
  exact List.filter_sublist

theorem Covers.add (covers : Covers old label seen c) (fresh : x ∉ old) : Covers old label seen (c.add x) := by
  have dropped : ∀ xs : List α, surviving old (xs ++ [x]) = surviving old xs := by
    intro xs
    rw [surviving_append]
    simp [surviving, fresh]
  have passed : surviving old (c.add x).passed = surviving old c.passed := by
    obtain ⟨passed, ahead⟩ := c
    cases passed <;> cases ahead <;> first | rfl | exact dropped _
  refine ⟨?_, ?_⟩
  · rw [elements_add, dropped]
    exact covers.order
  · rw [elements_add, dropped, passed]
    exact covers.seen

theorem surviving_erase (xs : List α) (distinct : xs.Nodup) :
    surviving old (xs.erase x) = (surviving old xs).filter fun y => decide (y ≠ x) := by
  have removed : xs.erase x = xs.filter fun y => decide (y ≠ x) := by
    rw [distinct.erase_eq_filter]
    apply List.filter_congr
    intro y _
    by_cases same : y = x <;> simp [same]
  rw [removed, surviving, surviving, List.filter_filter, List.filter_filter]
  congr 1
  funext y
  exact Bool.and_comm _ _

theorem elements_erase (distinct : c.elements.Nodup) : (c.erase x).elements = c.elements.erase x := by
  obtain ⟨passedDistinct, aheadDistinct, apart⟩ := List.nodup_append.mp distinct
  unfold elements erase
  rw [List.erase_append]
  by_cases member : x ∈ c.passed
  · have absent : x ∉ c.ahead := fun other => apart x member x other rfl
    rw [if_pos member, List.erase_of_not_mem absent]
  · rw [if_neg member, List.erase_of_not_mem member]

/-- What is left where the element stood, and where the cursor is then. -/
theorem erase_split {front back : List α} (distinct : c.elements.Nodup) (split : c.elements = front ++ x :: back) :
    (c.erase x).elements = front ++ back ∧
      (c.erase x).ahead.head? = if c.ahead.head? = some x then back.head? else c.ahead.head? := by
  have erased := elements_erase (x := x) distinct
  have notFront : x ∉ front := by
    rw [split] at distinct
    exact fun member => (List.nodup_append.mp distinct).2.2 x member x List.mem_cons_self rfl
  refine ⟨by rw [erased, split, List.erase_append_right _ notFront, List.erase_cons_head], ?_⟩
  show (c.ahead.erase x).head? = _
  cases list : c.ahead with
  | nil => rfl
  | cons y ahead =>
    by_cases same : y = x
    · have whole : c.passed ++ x :: ahead = front ++ x :: back := by
        rw [← same, ← list, same]
        exact split
      rw [split, ← whole] at distinct
      obtain ⟨_, aheadDistinct, apart⟩ := List.nodup_append.mp distinct
      have notPassed : x ∉ c.passed := fun member => apart x member x List.mem_cons_self rfl
      have notAhead : x ∉ ahead := (List.nodup_cons.mp aheadDistinct).1
      have rest : ahead = back := ((List.append_cons_inj_of_notMem notPassed notAhead).mp whole).2.2
      rw [same, List.erase_cons_head, rest]
      exact (if_pos rfl).symm
    · rw [List.erase_cons_tail (by simpa using same)]
      exact (if_neg (by simpa using same)).symm

theorem Covers.erase (covers : Covers old label seen c) (distinct : (c.elements.map label).Nodup) :
    Covers old label seen (c.erase x) := by
  have nodup : c.elements.Nodup := List.Nodup.of_map _ distinct
  have passedNodup : c.passed.Nodup := (List.nodup_append.mp nodup).1
  have passedLabels : ((surviving old c.passed).map label).Nodup := by
    refine (List.Sublist.map label (List.Sublist.trans List.filter_sublist ?_)).nodup distinct
    exact List.sublist_append_left _ _
  have injective : ∀ y ∈ c.elements, ∀ z ∈ c.elements, label y = label z → y = z :=
    fun y yMem z zMem same => List.inj_on_of_nodup_map distinct yMem zMem same
  refine ⟨?_, ?_⟩
  · rw [elements_erase nodup, surviving_erase _ nodup]
    exact List.filter_sublist.trans covers.order
  · rw [elements_erase nodup, surviving_erase _ nodup]
    show _ = (surviving old (c.passed.erase x)).map label
    rw [surviving_erase _ passedNodup]
    -- the labels left over are those seen before, without the label of `x`
    have fewer : (seen.filter fun b => decide (b ∈ ((surviving old c.elements).filter fun y => decide (y ≠ x)).map label)) =
        (seen.filter fun b => decide (b ∈ (surviving old c.elements).map label)).filter
          fun b => decide (b ∈ ((surviving old c.elements).filter fun y => decide (y ≠ x)).map label) := by
      rw [List.filter_filter]
      apply List.filter_congr
      intro b _
      by_cases left : b ∈ ((surviving old c.elements).filter fun y => decide (y ≠ x)).map label
      · have before : b ∈ (surviving old c.elements).map label :=
          (List.Sublist.map label List.filter_sublist).subset left
        simp only [left, before, decide_true, Bool.and_self]
      · simp only [left, decide_false, Bool.false_and]
    rw [fewer, covers.seen, List.filter_map]
    congr 1
    apply List.filter_congr
    intro y yMem
    have yPassed : y ∈ c.passed := (List.mem_filter.mp yMem).1
    have yElement : y ∈ c.elements := List.mem_append_left _ yPassed
    have yOld := (List.mem_filter.mp yMem).2
    show decide (label y ∈ _) = decide (y ≠ x)
    apply decide_eq_decide.mpr
    constructor
    · intro member
      obtain ⟨z, zMem, same⟩ := List.mem_map.mp member
      obtain ⟨zSurvives, different⟩ := List.mem_filter.mp zMem
      have zElement := (List.mem_filter.mp zSurvives).1
      obtain rfl := injective z zElement y yElement same
      exact of_decide_eq_true different
    · intro different
      exact List.mem_map_of_mem (List.mem_filter.mpr ⟨List.mem_filter.mpr ⟨yElement, yOld⟩, decide_eq_true different⟩)

theorem Covers.advance {passed ahead : List α} (covers : Covers old label seen ⟨passed, x :: ahead⟩)
    (distinct : ((⟨passed, x :: ahead⟩ : Cursor α).elements.map label).Nodup) :
    Covers old label (seen ++ [label x]) ⟨passed ++ [x], ahead⟩ := by
  have same : (⟨passed ++ [x], ahead⟩ : Cursor α).elements = (⟨passed, x :: ahead⟩ : Cursor α).elements :=
    List.append_assoc _ _ _
  refine ⟨by rw [same]; exact covers.order, ?_⟩
  have xElement : x ∈ (⟨passed, x :: ahead⟩ : Cursor α).elements := by simp [elements]
  rw [same, List.filter_append, covers.seen]
  show _ = (surviving old (passed ++ [x])).map label
  rw [surviving_append, List.map_append]
  congr 1
  by_cases isOld : x ∈ old
  · have listed : label x ∈ (surviving old (⟨passed, x :: ahead⟩ : Cursor α).elements).map label :=
      List.mem_map_of_mem (List.mem_filter.mpr ⟨xElement, decide_eq_true isOld⟩)
    have one : surviving old [x] = [x] := by simp [surviving, isOld]
    rw [one, List.map_singleton, List.filter_eq_self]
    intro b member
    obtain rfl := List.mem_singleton.mp member
    exact decide_eq_true listed
  · have unlisted : label x ∉ (surviving old (⟨passed, x :: ahead⟩ : Cursor α).elements).map label := by
      intro member
      obtain ⟨y, yMem, same⟩ := List.mem_map.mp member
      obtain ⟨yElement, yOld⟩ := List.mem_filter.mp yMem
      obtain rfl := List.inj_on_of_nodup_map distinct yElement xElement same
      exact isOld (of_decide_eq_true yOld)
    have none : surviving old [x] = [] := by simp [surviving, isOld]
    rw [none, List.map_nil, List.filter_eq_nil_iff]
    intro b member
    obtain rfl := List.mem_singleton.mp member
    simpa using unlisted

/-- A sublist of a list without repetitions is found again by filtering. -/
theorem filter_of_sublist {xs ys : List α} (sublist : xs.Sublist ys) (distinct : ys.Nodup) :
    (ys.filter fun y => decide (y ∈ xs)) = xs := by
  induction sublist with
  | slnil => rfl
  | @cons xs ys y sublist ih =>
    obtain ⟨fresh, rest⟩ := List.nodup_cons.mp distinct
    have absent : y ∉ xs := fun member => fresh (sublist.subset member)
    rw [List.filter_cons_of_neg (by simpa using absent)]
    exact ih rest
  | @cons_cons xs ys y sublist ih =>
    obtain ⟨fresh, rest⟩ := List.nodup_cons.mp distinct
    rw [List.filter_cons_of_pos (by simp)]
    congr 1
    refine Eq.trans (List.filter_congr ?_) (ih rest)
    intro z zMem
    have different : z ≠ y := fun same => fresh (same ▸ zMem)
    simp [different]

/-- Once the cursor has reached the end, every old element that is left was seen once, in the
old order. -/
theorem Covers.finish {passed : List α} (covers : Covers old label seen ⟨passed, []⟩) (distinct : old.Nodup) :
    (seen.filter fun b => decide (b ∈ (surviving passed old).map label)) = (surviving passed old).map label := by
  have whole : (⟨passed, []⟩ : Cursor α).elements = passed := List.append_nil passed
  obtain ⟨order, all⟩ := covers
  rw [whole] at order all
  have same : surviving passed old = surviving old passed := by
    rw [← filter_of_sublist order distinct]
    apply List.filter_congr
    intro y yMem
    simp [surviving, yMem]
  rw [same]
  exact all

end Cursor
