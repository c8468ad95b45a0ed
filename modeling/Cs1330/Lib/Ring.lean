import Mathlib.Tactic.Common

/-!
# Circular doubly linked lists

`next` and `prev` are the link fields of a pool of nodes. `Segment next prev x ys z` says that
the links lead from `x` through `ys` to `z` and back; `Ring` closes a segment on its first node.
Links outside the listed nodes are free, so the rules for linking in and unlinking a node only
ask that the new link fields agree with the old ones on the list.
-/

namespace Links

variable {α : Type} {next prev next' prev' : α → α}

def Segment (next prev : α → α) (x : α) : List α → α → Prop
  | [], z => next x = z ∧ prev z = x
  | y :: ys, z => next x = y ∧ prev y = x ∧ Segment next prev y ys z

/-- The nodes `xs`, in order, form a circular list. -/
def Ring (next prev : α → α) : List α → Prop
  | [] => True
  | x :: xs => Segment next prev x xs x

theorem segment_append {x y z : α} {xs ys : List α} :
    Segment next prev x (xs ++ y :: ys) z ↔ Segment next prev x xs y ∧ Segment next prev y ys z := by
  induction xs generalizing x with
  | nil => simp [Segment, and_assoc]
  | cons w ws ih => simp [Segment, ih, and_assoc]

theorem segment_congr {x z : α} {xs : List α} (h : Segment next prev x xs z)
    (sameNext : ∀ a ∈ x :: xs, next' a = next a) (samePrev : ∀ a ∈ z :: xs, prev' a = prev a) :
    Segment next' prev' x xs z := by
  induction xs generalizing x with
  | nil =>
    obtain ⟨forward, back⟩ := h
    exact ⟨by rw [sameNext x (by simp), forward], by rw [samePrev z (by simp), back]⟩
  | cons y ys ih =>
    obtain ⟨forward, back, rest⟩ := h
    refine ⟨by rw [sameNext x (by simp), forward], by rw [samePrev y (by simp), back], ih rest ?_ ?_⟩
    · exact fun a member => sameNext a (List.mem_cons_of_mem _ member)
    · intro a member
      rcases List.mem_cons.mp member with rfl | member
      · exact samePrev _ List.mem_cons_self
      · exact samePrev a (by simp [member])

theorem ring_congr {xs : List α} (h : Ring next prev xs) (sameNext : ∀ a ∈ xs, next' a = next a)
    (samePrev : ∀ a ∈ xs, prev' a = prev a) : Ring next' prev' xs := by
  cases xs with
  | nil => trivial
  | cons x xs => exact segment_congr h sameNext samePrev

theorem segment_unique {x z : α} {xs : List α} (h : Segment next prev x xs z) (h' : Segment next' prev' x xs z) :
    (∀ a ∈ x :: xs, next' a = next a) ∧ ∀ a ∈ z :: xs, prev' a = prev a := by
  induction xs generalizing x with
  | nil => simp [h.1, h.2, h'.1, h'.2]
  | cons y ys ih =>
    obtain ⟨forward, back, rest⟩ := h
    obtain ⟨forward', back', rest'⟩ := h'
    obtain ⟨nexts, prevs⟩ := ih rest rest'
    refine ⟨List.forall_mem_cons.mpr ⟨forward'.trans forward.symm, nexts⟩, ?_⟩
    obtain ⟨atEnd, inside⟩ := List.forall_mem_cons.mp prevs
    exact List.forall_mem_cons.mpr ⟨atEnd, List.forall_mem_cons.mpr ⟨back'.trans back.symm, inside⟩⟩

theorem ring_unique {xs : List α} (h : Ring next prev xs) (h' : Ring next' prev' xs) :
    ∀ a ∈ xs, next' a = next a ∧ prev' a = prev a := by
  cases xs with
  | nil => simp
  | cons x xs =>
    obtain ⟨nexts, prevs⟩ := segment_unique h h'
    exact fun a member => ⟨nexts a member, prevs a member⟩

theorem segment_last_mem {x z : α} {xs : List α} (h : Segment next prev x xs z) : prev z ∈ x :: xs := by
  induction xs generalizing x with
  | nil => simp [h.2]
  | cons y ys ih => exact List.mem_cons_of_mem _ (ih h.2.2)

theorem segment_first_mem {x z : α} {xs : List α} (h : Segment next prev x xs z) : next x ∈ xs ++ [z] := by
  cases xs with
  | nil => simp [h.1]
  | cons y ys => simp [h.1]

theorem segment_mem {x z a : α} {xs : List α} (h : Segment next prev x xs z) (member : a ∈ xs) :
    next a ∈ xs ++ [z] ∧ prev a ∈ x :: xs := by
  induction xs generalizing x with
  | nil => simp at member
  | cons y ys ih =>
    obtain ⟨_, back, rest⟩ := h
    rcases List.mem_cons.mp member with rfl | member
    · exact ⟨List.mem_cons_of_mem _ (segment_first_mem rest), by simp [back]⟩
    · obtain ⟨forward, backward⟩ := ih rest member
      exact ⟨List.mem_cons_of_mem _ forward, List.mem_cons_of_mem _ backward⟩

theorem ring_mem {a : α} {xs : List α} (h : Ring next prev xs) (member : a ∈ xs) : next a ∈ xs ∧ prev a ∈ xs := by
  cases xs with
  | nil => simp at member
  | cons x xs =>
    rcases List.mem_cons.mp member with rfl | member
    · exact ⟨by simpa [or_comm] using segment_first_mem h, segment_last_mem h⟩
    · obtain ⟨forward, backward⟩ := segment_mem h member
      exact ⟨by simpa [or_comm] using forward, backward⟩

/-- A segment led to another end by changing only its last forward link and the new end's back link. -/
theorem segment_retarget {x z w : α} {xs : List α} (h : Segment next prev x xs z)
    (distinct : (x :: xs).Nodup) (newNext : next' (prev z) = w) (newPrev : prev' w = prev z)
    (sameNext : ∀ a ∈ x :: xs, a ≠ prev z → next' a = next a) (samePrev : ∀ a ∈ xs, prev' a = prev a) :
    Segment next' prev' x xs w := by
  induction xs generalizing x with
  | nil =>
    obtain ⟨_, back⟩ := h
    exact ⟨by rw [← back, newNext], by rw [newPrev, back]⟩
  | cons y ys ih =>
    obtain ⟨forward, back, rest⟩ := h
    have last := segment_last_mem rest
    have different : x ≠ prev z := fun same => (List.nodup_cons.mp distinct).1 (same ▸ last)
    refine ⟨by rw [sameNext x (by simp) different, forward], by rw [samePrev y (by simp), back],
      ih rest (List.nodup_cons.mp distinct).2 ?_ ?_⟩
    · exact fun a member => sameNext a (List.mem_cons_of_mem _ member)
    · exact fun a member => samePrev a (List.mem_cons_of_mem _ member)

theorem ring_next {x y : α} {xs ys : List α} (h : Ring next prev (xs ++ x :: y :: ys)) : next x = y := by
  cases xs with
  | nil => exact h.1
  | cons w ws => exact (segment_append.mp h).2.1

theorem ring_next_last {x z : α} {xs : List α} (h : Ring next prev (xs ++ [x])) : next x = (xs ++ [x]).headD z := by
  cases xs with
  | nil => exact h.1
  | cons w ws => exact (segment_append.mp h).2.1

theorem ring_insert {x y : α} {xs : List α} (h : Ring next prev (x :: xs)) (distinct : (y :: x :: xs).Nodup)
    (nextNew : next' y = x) (prevNew : prev' y = prev x) (nextLast : next' (prev x) = y) (prevHead : prev' x = y)
    (sameNext : ∀ a ∈ x :: xs, a ≠ prev x → next' a = next a) (samePrev : ∀ a ∈ xs, prev' a = prev a) :
    Ring next' prev' (y :: x :: xs) :=
  ⟨nextNew, prevHead, segment_retarget h (List.nodup_cons.mp distinct).2 nextLast prevNew sameNext samePrev⟩

/-- Unlinking the head of a ring with another node. -/
theorem ring_pull_head {x y : α} {ys : List α} (h : Ring next prev (x :: y :: ys))
    (distinct : (x :: y :: ys).Nodup) (newNext : next' (prev x) = next x) (newPrev : prev' (next x) = prev x)
    (sameNext : ∀ a ∈ y :: ys, a ≠ prev x → next' a = next a)
    (samePrev : ∀ a ∈ ys, prev' a = prev a) : Ring next' prev' (y :: ys) := by
  obtain ⟨forward, _, rest⟩ := h
  rw [forward] at newNext newPrev
  exact segment_retarget rest (List.nodup_cons.mp distinct).2 newNext newPrev sameNext samePrev

theorem ring_pull {w x : α} {xs ys : List α} (h : Ring next prev (w :: (xs ++ x :: ys)))
    (distinct : (w :: (xs ++ x :: ys)).Nodup) (newNext : next' (prev x) = next x)
    (newPrev : prev' (next x) = prev x)
    (sameNext : ∀ a ∈ w :: (xs ++ ys), a ≠ prev x → next' a = next a)
    (samePrev : ∀ a ∈ w :: (xs ++ ys), a ≠ next x → prev' a = prev a) :
    Ring next' prev' (w :: (xs ++ ys)) := by
  obtain ⟨front, back⟩ := segment_append.mp h
  have last := segment_last_mem front
  have frontDistinct : (w :: xs).Nodup := List.Nodup.sublist (by simp) distinct
  have apart : ∀ a ∈ w :: xs, a ≠ x ∧ a ∉ ys := by
    rw [← List.cons_append, List.nodup_append] at distinct
    intro a member
    have := distinct.2.2 a member
    exact ⟨this x (by simp), fun inside => this a (by simp [inside]) rfl⟩
  cases ys with
  | nil =>
    rw [List.append_nil] at sameNext samePrev ⊢
    obtain ⟨forward, _⟩ := back
    rw [forward] at newNext newPrev samePrev
    apply segment_retarget front frontDistinct newNext newPrev sameNext
    intro a member
    apply samePrev a (List.mem_cons_of_mem _ member)
    rintro rfl
    exact (List.nodup_cons.mp frontDistinct).1 member
  | cons y ys =>
    obtain ⟨forward, _, rest⟩ := back
    rw [forward] at newNext newPrev samePrev
    refine segment_append.mpr ⟨segment_retarget front frontDistinct newNext newPrev ?_ ?_, ?_⟩
    · exact fun a member => sameNext a (by simp at member ⊢; tauto)
    · intro a member
      apply samePrev a (by simp [member])
      rintro rfl
      exact (apart a (List.mem_cons_of_mem _ member)).2 List.mem_cons_self
    · apply segment_congr rest
      · intro a member
        apply sameNext a (by simp at member ⊢; tauto)
        rintro rfl
        exact (apart _ last).2 member
      · intro a member
        have distinctBack : (y :: ys).Nodup :=
          List.Nodup.sublist (List.Sublist.trans (by simp) (List.sublist_cons_self w _)) distinct
        rcases List.mem_cons.mp member with rfl | member
        · apply samePrev _ (by simp)
          rintro rfl
          exact (apart _ List.mem_cons_self).2 List.mem_cons_self
        · apply samePrev a (by simp [member])
          rintro rfl
          exact (List.nodup_cons.mp distinctBack).1 member

end Links
