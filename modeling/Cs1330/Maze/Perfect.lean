import Cs1330.Lib.Graph
import Cs1330.Maze.Generator

/-!
# The generated maze

A maze is perfect when its openings form a spanning tree of the grid. `drunken_walk` keeps, of the
rooms it has been in, that the openings recorded so far are acyclic and connect them, where a side
counts as open as soon as one of its two rooms has recorded it so. Rooms on the recursion stack
are `active`: only they have undetermined sides.
-/

namespace Cs1330.Maze

abbrev Spot (numRows numCols : Int) := { c : Cell // c ∈ grid numRows numCols }

/-- Neighbours with an opening between them. -/
def openings (numRows numCols : Int) (maze : Rooms) : SimpleGraph (Spot numRows numCols) where
  Adj a b := ∃ dir, move dir a = b.1 ∧ ((maze a).side dir = 0 ∨ (maze b).side (getOppositeDir dir) = 0)
  symm := by
    constructor
    rintro a b ⟨dir, isNext, opened⟩
    refine ⟨getOppositeDir dir, ?_, ?_⟩
    · rw [← isNext, move_opposite]
    · rw [opposite_opposite]
      exact opened.symm
  loopless := ⟨fun a ⟨dir, isNext, _⟩ => move_ne dir a isNext⟩

structure Perfect (numRows numCols : Int) (maze : Rooms) : Prop where
  visited : ∀ c ∈ grid numRows numCols, (maze c).visited = 1
  walls : ∀ c ∈ grid numRows numCols, ∀ dir, (maze c).side dir = 0 ∨ (maze c).side dir = 1
  border : ∀ c ∈ grid numRows numCols, ∀ dir, move dir c ∉ grid numRows numCols → (maze c).side dir = 1
  shared : ∀ c ∈ grid numRows numCols, ∀ dir, move dir c ∈ grid numRows numCols →
    (maze c).side dir = (maze (move dir c)).side (getOppositeDir dir)
  tree : (openings numRows numCols maze).IsTree
  count : Nat.card (openings numRows numCols maze).edgeSet + 1 = (numRows * numCols).toNat

structure Walked (numRows numCols : Int) (maze : Rooms) (active : Set Cell) : Prop where
  indexed : ∀ c ∈ grid numRows numCols, (maze c).row = c.1 ∧ (maze c).col = c.2
  flags : ∀ c ∈ grid numRows numCols, (maze c).visited = 0 ∨ (maze c).visited = 1
  values : ∀ c ∈ grid numRows numCols, ∀ dir, (maze c).side dir = -1 ∨ (maze c).side dir = 0 ∨ (maze c).side dir = 1
  untouched : ∀ c ∈ grid numRows numCols, (maze c).visited = 0 → ∀ dir, (maze c).side dir = -1
  border : ∀ c ∈ grid numRows numCols, ∀ dir, move dir c ∉ grid numRows numCols → (maze c).side dir ≠ 0
  agree : ∀ c ∈ grid numRows numCols, ∀ dir, move dir c ∈ grid numRows numCols → (maze c).side dir ≠ -1 →
    (maze (move dir c)).side (getOppositeDir dir) ≠ -1 →
      (maze c).side dir = (maze (move dir c)).side (getOppositeDir dir)
  known : ∀ c ∈ grid numRows numCols, ∀ dir, move dir c ∈ grid numRows numCols → (maze c).side dir ≠ -1 →
    (maze (move dir c)).visited = 1
  finished : ∀ c ∈ grid numRows numCols, (maze c).visited = 1 → c ∉ active → ∀ dir, (maze c).side dir ≠ -1
  acyclic : (openings numRows numCols maze).IsAcyclic
  linked : ∀ a b : Spot numRows numCols, (maze a).visited = 1 → (maze b).visited = 1 →
    (openings numRows numCols maze).Reachable a b

variable {numRows numCols : Int} {maze maze' : Rooms} {active : Set Cell} {c d : Cell} {dir : Direction}

/-! ### Writing a side -/

theorem setSide_self {value : Int} : setSide maze c dir value c = (maze c).setSide dir value := Function.update_self _ _ _

theorem setSide_other {value : Int} (different : d ≠ c) : setSide maze c dir value d = maze d :=
  Function.update_of_ne different _ _

@[simp] theorem visited_setSide (value : Int) : (setSide maze c dir value d).visited = (maze d).visited := by
  by_cases here : d = c
  · subst here
    rw [setSide_self, setSide_visited]
  · rw [setSide_other here]

theorem side_setSide_apply (value : Int) (dir' : Direction) :
    (setSide maze c dir value d).side dir' = if d = c ∧ dir' = dir then value else (maze d).side dir' := by
  by_cases here : d = c
  · subst here
    rw [setSide_self, side_setSide]
    simp
  · rw [setSide_other here, if_neg fun both => here both.1]

theorem indexed_setSide (value : Int) (indexed : (maze d).row = d.1 ∧ (maze d).col = d.2) :
    (setSide maze c dir value d).row = d.1 ∧ (setSide maze c dir value d).col = d.2 := by
  by_cases here : d = c
  · subst here
    rw [setSide_self, setSide_row, setSide_col]
    exact indexed
  · rwa [setSide_other here]

/-- Recording on an undetermined side what its other room says, or a wall, leaves the openings as
they are. -/
theorem openings_record {value : Int} (unknown : (maze c).side dir = -1)
    (copied : value = 0 → move dir c ∈ grid numRows numCols → (maze (move dir c)).side (getOppositeDir dir) = 0) :
    openings numRows numCols (setSide maze c dir value) = openings numRows numCols maze := by
  have same : ∀ a b : Spot numRows numCols, ∀ dir', move dir' a = b.1 →
      (((setSide maze c dir value a).side dir' = 0 ∨ (setSide maze c dir value b).side (getOppositeDir dir') = 0) ↔
        ((maze a).side dir' = 0 ∨ (maze b).side (getOppositeDir dir') = 0)) := by
    intro a b dir' isNext
    rw [side_setSide_apply, side_setSide_apply]
    by_cases atA : a.1 = c ∧ dir' = dir
    · obtain ⟨isC, rfl⟩ := atA
      have isB : b.1 = move dir' c := by rw [← isNext, isC]
      have inside : move dir' c ∈ grid numRows numCols := isB ▸ b.2
      have notC : b.1 ≠ c := by
        rw [isB]
        exact move_ne dir' c
      rw [if_pos ⟨isC, rfl⟩, if_neg (fun both => notC both.1), isC, unknown, isB]
      constructor
      · rintro (isZero | opened)
        · exact Or.inr (copied isZero inside)
        · exact Or.inr opened
      · rintro (impossible | opened)
        · exact absurd impossible (by decide)
        · exact Or.inr opened
    · rw [if_neg atA]
      by_cases atB : b.1 = c ∧ getOppositeDir dir' = dir
      · obtain ⟨isC, rfl⟩ := atB
        have isA : a.1 = move (getOppositeDir dir') c := by
          rw [← isC, ← isNext, move_opposite]
        have inside : move (getOppositeDir dir') c ∈ grid numRows numCols := isA ▸ a.2
        rw [if_pos ⟨isC, rfl⟩, isC, unknown]
        rw [opposite_opposite, ← isA] at copied
        constructor
        · rintro (opened | isZero)
          · exact Or.inl opened
          · exact Or.inl (copied isZero (isA ▸ inside))
        · rintro (opened | impossible)
          · exact Or.inl opened
          · exact absurd impossible (by decide)
      · rw [if_neg atB]
  ext a b
  constructor
  · rintro ⟨dir', isNext, opened⟩
    exact ⟨dir', isNext, (same a b dir' isNext).mp opened⟩
  · rintro ⟨dir', isNext, opened⟩
    exact ⟨dir', isNext, (same a b dir' isNext).mpr opened⟩

/-- The two rooms of a written side agree when the other one says the same, or nothing yet. -/
theorem Walked.agree_setSide {value : Int} (walked : Walked numRows numCols maze active)
    (neighbor : move dir c ∈ grid numRows numCols → (maze (move dir c)).side (getOppositeDir dir) = value ∨
      (maze (move dir c)).side (getOppositeDir dir) = -1) :
    ∀ e ∈ grid numRows numCols, ∀ dir', move dir' e ∈ grid numRows numCols → (setSide maze c dir value e).side dir' ≠ -1 →
      (setSide maze c dir value (move dir' e)).side (getOppositeDir dir') ≠ -1 →
        (setSide maze c dir value e).side dir' = (setSide maze c dir value (move dir' e)).side (getOppositeDir dir') := by
  intro e eInside dir' next
  rw [side_setSide_apply, side_setSide_apply]
  by_cases atE : e = c ∧ dir' = dir
  · obtain ⟨rfl, rfl⟩ := atE
    rw [if_pos ⟨rfl, rfl⟩, if_neg (fun both => move_ne dir' e both.1)]
    rcases neighbor next with copied | unset
    · exact fun _ _ => copied.symm
    · exact fun _ known => absurd unset known
  · rw [if_neg atE]
    by_cases atNext : move dir' e = c ∧ getOppositeDir dir' = dir
    · obtain ⟨rfl, rfl⟩ := atNext
      rw [if_pos ⟨rfl, rfl⟩]
      simp only [move_opposite, opposite_opposite] at neighbor
      rcases neighbor eInside with copied | unset
      · exact fun _ _ => copied
      · exact fun known => absurd unset known
    · rw [if_neg atNext]
      exact walked.agree e eInside dir' next

theorem Walked.record {value : Int} (walked : Walked numRows numCols maze active) (inside : c ∈ grid numRows numCols)
    (visited : (maze c).visited = 1) (unknown : (maze c).side dir = -1) (binary : value = 0 ∨ value = 1)
    (border : move dir c ∉ grid numRows numCols → value = 1)
    (neighbor : move dir c ∈ grid numRows numCols → (maze (move dir c)).visited = 1 ∧
      ((maze (move dir c)).side (getOppositeDir dir) = value ∨
        value = 1 ∧ (maze (move dir c)).side (getOppositeDir dir) = -1)) :
    Walked numRows numCols (setSide maze c dir value) active := by
  have same : openings numRows numCols (setSide maze c dir value) = openings numRows numCols maze := by
    apply openings_record unknown
    intro isZero next
    rcases (neighbor next).2 with copied | ⟨isOne, _⟩
    · rw [copied, isZero]
    · omega
  refine ⟨?_, ?_, ?_, ?_, ?_, ?_, ?_, ?_, ?_, ?_⟩
  · intro e eInside
    exact indexed_setSide value (walked.indexed e eInside)
  · intro e eInside
    rw [visited_setSide]
    exact walked.flags e eInside
  · intro e eInside dir'
    rw [side_setSide_apply]
    split
    · exact Or.inr binary
    · exact walked.values e eInside dir'
  · intro e eInside unvisited dir'
    rw [visited_setSide] at unvisited
    rw [side_setSide_apply, if_neg]
    · exact walked.untouched e eInside unvisited dir'
    · rintro ⟨rfl, _⟩
      omega
  · intro e eInside dir' outside
    rw [side_setSide_apply]
    split
    · rename_i here
      obtain ⟨rfl, rfl⟩ := here
      rw [border outside]
      decide
    · exact walked.border e eInside dir' outside
  · apply walked.agree_setSide
    intro next
    exact (neighbor next).2.imp_right And.right
  · intro e eInside dir' next
    rw [visited_setSide, side_setSide_apply]
    split
    · rename_i here
      obtain ⟨rfl, rfl⟩ := here
      exact fun _ => (neighbor next).1
    · exact walked.known e eInside dir' next
  · intro e eInside eVisited idle dir'
    rw [visited_setSide] at eVisited
    rw [side_setSide_apply]
    split
    · omega
    · exact walked.finished e eInside eVisited idle dir'
  · rw [same]
    exact walked.acyclic
  · intro a b aVisited bVisited
    rw [visited_setSide] at aVisited bVisited
    rw [same]
    exact walked.linked a b aVisited bVisited

/-! ### Entering a new room -/

@[simp] theorem side_setVisited (dir : Direction) : (setVisited maze c d).side dir = (maze d).side dir := by
  by_cases here : d = c
  · subst here
    rw [setVisited, Function.update_self]
    cases dir <;> rfl
  · rw [setVisited, Function.update_of_ne here]

theorem visited_setVisited : (setVisited maze c d).visited = if d = c then 1 else (maze d).visited := by
  by_cases here : d = c
  · subst here
    rw [setVisited, Function.update_self, if_pos rfl]
  · rw [setVisited, Function.update_of_ne here, if_neg here]

theorem indexed_setVisited (indexed : (maze d).row = d.1 ∧ (maze d).col = d.2) :
    (setVisited maze c d).row = d.1 ∧ (setVisited maze c d).col = d.2 := by
  by_cases here : d = c
  · subst here
    rw [setVisited, Function.update_self]
    exact indexed
  · rwa [setVisited, Function.update_of_ne here]

theorem Walked.isolated (walked : Walked numRows numCols maze active) (a : Spot numRows numCols)
    (unvisited : (maze a).visited = 0) (b : Spot numRows numCols) : ¬(openings numRows numCols maze).Adj a b := by
  rintro ⟨dir, isNext, opened | opened⟩
  · have unset := walked.untouched a a.2 unvisited dir
    omega
  · have back : move (getOppositeDir dir) b = a.1 := by
      rw [← isNext, move_opposite]
    have known := walked.known b b.2 (getOppositeDir dir) (back ▸ a.2) (by omega)
    rw [back] at known
    omega

theorem spot_ne_next (inside : c ∈ grid numRows numCols) (next : move dir c ∈ grid numRows numCols) :
    (⟨c, inside⟩ : Spot numRows numCols) ≠ ⟨move dir c, next⟩ := by
  intro equal
  exact move_ne dir c (congrArg Subtype.val equal).symm

theorem openings_enter_le (inside : c ∈ grid numRows numCols) (next : move dir c ∈ grid numRows numCols) :
    openings numRows numCols (setVisited (setSide maze c dir 0) (move dir c)) ≤
        openings numRows numCols maze ⊔ SimpleGraph.edge ⟨c, inside⟩ ⟨move dir c, next⟩ := by
  rintro a b ⟨dir', isNext, opened⟩
  have different := spot_ne_next inside next
  simp only [side_setVisited, side_setSide_apply] at opened
  by_cases atA : a.1 = c ∧ dir' = dir
  · obtain ⟨isC, rfl⟩ := atA
    obtain rfl : a = ⟨c, inside⟩ := Subtype.ext isC
    obtain rfl : b = ⟨move dir' c, next⟩ := Subtype.ext isNext.symm
    exact Or.inr ((SimpleGraph.edge_adj _ _ _ _).mpr ⟨Or.inl ⟨rfl, rfl⟩, different⟩)
  · by_cases atB : b.1 = c ∧ getOppositeDir dir' = dir
    · obtain ⟨isC, rfl⟩ := atB
      obtain rfl : b = ⟨c, inside⟩ := Subtype.ext isC
      have isA : a = ⟨move (getOppositeDir dir') c, next⟩ := by
        apply Subtype.ext
        show a.1 = move (getOppositeDir dir') c
        rw [show c = move dir' a from isNext.symm, move_opposite]
      subst isA
      exact Or.inr ((SimpleGraph.edge_adj _ _ _ _).mpr ⟨Or.inr ⟨rfl, rfl⟩, different.symm⟩)
    · rw [if_neg atA, if_neg atB] at opened
      exact Or.inl ⟨dir', isNext, opened⟩

theorem le_openings_enter (inside : c ∈ grid numRows numCols)
    (next : move dir c ∈ grid numRows numCols) :
    openings numRows numCols maze ⊔ SimpleGraph.edge ⟨c, inside⟩ ⟨move dir c, next⟩ ≤
      openings numRows numCols (setVisited (setSide maze c dir 0) (move dir c)) := by
  have kept : ∀ (a : Cell) (dir' : Direction), (maze a).side dir' = 0 →
      (setVisited (setSide maze c dir 0) (move dir c) a).side dir' = 0 := by
    intro a dir' opened
    rw [side_setVisited, side_setSide_apply]
    split
    · rfl
    · exact opened
  have opened : (setVisited (setSide maze c dir 0) (move dir c) c).side dir = 0 := by
    rw [side_setVisited, side_setSide_apply, if_pos ⟨rfl, rfl⟩]
  apply sup_le
  · rintro a b ⟨dir', isNext, opened⟩
    exact ⟨dir', isNext, opened.imp (kept a dir') (kept b (getOppositeDir dir'))⟩
  · intro a b adjacent
    rcases ((SimpleGraph.edge_adj _ _ _ _).mp adjacent).1 with ⟨rfl, rfl⟩ | ⟨rfl, rfl⟩
    · exact ⟨dir, rfl, Or.inl opened⟩
    · exact SimpleGraph.Adj.symm ⟨dir, rfl, Or.inl opened⟩

theorem openings_enter (inside : c ∈ grid numRows numCols) (next : move dir c ∈ grid numRows numCols) :
    openings numRows numCols (setVisited (setSide maze c dir 0) (move dir c)) =
      openings numRows numCols maze ⊔ SimpleGraph.edge ⟨c, inside⟩ ⟨move dir c, next⟩ :=
  le_antisymm (openings_enter_le inside next) (le_openings_enter inside next)

theorem Walked.linked_enter (walked : Walked numRows numCols maze active) (inside : c ∈ grid numRows numCols)
    (visited : (maze c).visited = 1) (next : move dir c ∈ grid numRows numCols) :
    ∀ a b : Spot numRows numCols, (setVisited (setSide maze c dir 0) (move dir c) a).visited = 1 →
      (setVisited (setSide maze c dir 0) (move dir c) b).visited = 1 →
        (openings numRows numCols (setVisited (setSide maze c dir 0) (move dir c))).Reachable a b := by
  have toNew : ∀ a : Spot numRows numCols, (maze a).visited = 1 →
      (openings numRows numCols (setVisited (setSide maze c dir 0) (move dir c))).Reachable a ⟨move dir c, next⟩ := by
    intro a aVisited
    rw [openings_enter inside next]
    exact SimpleGraph.reachable_sup_pendant (spot_ne_next inside next) (walked.linked a ⟨c, inside⟩ aVisited visited)
  intro a b aVisited bVisited
  rw [visited_setVisited, visited_setSide] at aVisited bVisited
  by_cases newA : a.1 = move dir c
  · obtain rfl : a = ⟨move dir c, next⟩ := Subtype.ext newA
    by_cases newB : b.1 = move dir c
    · obtain rfl : b = ⟨move dir c, next⟩ := Subtype.ext newB
      exact SimpleGraph.Reachable.refl _
    · rw [if_neg newB] at bVisited
      exact (toNew b bVisited).symm
  · rw [if_neg newA] at aVisited
    by_cases newB : b.1 = move dir c
    · obtain rfl : b = ⟨move dir c, next⟩ := Subtype.ext newB
      exact toNew a aVisited
    · rw [if_neg newB] at bVisited
      rw [openings_enter inside next]
      exact (walked.linked a b aVisited bVisited).mono le_sup_left

theorem Walked.enter (walked : Walked numRows numCols maze active) (inside : c ∈ grid numRows numCols)
    (visited : (maze c).visited = 1) (unknown : (maze c).side dir = -1) (next : move dir c ∈ grid numRows numCols)
    (unvisited : (maze (move dir c)).visited = 0) :
    Walked numRows numCols (setVisited (setSide maze c dir 0) (move dir c)) (insert (move dir c) active) := by
  have unset := walked.untouched _ next unvisited
  have seen : ∀ e, (maze e).visited = 1 → (setVisited (setSide maze c dir 0) (move dir c) e).visited = 1 := by
    intro e eVisited
    rw [visited_setVisited, visited_setSide]
    split
    · rfl
    · exact eVisited
  have newSeen : (setVisited (setSide maze c dir 0) (move dir c) (move dir c)).visited = 1 := by
    rw [visited_setVisited, if_pos rfl]
  refine ⟨?_, ?_, ?_, ?_, ?_, ?_, ?_, ?_, ?_, ?_⟩
  · intro e eInside
    exact indexed_setVisited (indexed_setSide 0 (walked.indexed e eInside))
  · intro e eInside
    rw [visited_setVisited, visited_setSide]
    split
    · exact Or.inr rfl
    · exact walked.flags e eInside
  · intro e eInside dir'
    rw [side_setVisited, side_setSide_apply]
    split
    · exact Or.inr (Or.inl rfl)
    · exact walked.values e eInside dir'
  · intro e eInside eUnvisited dir'
    rw [visited_setVisited, visited_setSide] at eUnvisited
    rw [side_setVisited, side_setSide_apply]
    split at eUnvisited
    · omega
    · rw [if_neg]
      · exact walked.untouched e eInside eUnvisited dir'
      · rintro ⟨rfl, _⟩
        omega
  · intro e eInside dir' outside
    rw [side_setVisited, side_setSide_apply, if_neg]
    · exact walked.border e eInside dir' outside
    · rintro ⟨rfl, rfl⟩
      exact outside next
  · intro e eInside dir' eNext
    rw [side_setVisited, side_setVisited]
    exact walked.agree_setSide (fun _ => .inr (unset _)) e eInside dir' eNext
  · intro e eInside dir' eNext
    rw [side_setVisited, side_setSide_apply]
    by_cases atE : e = c ∧ dir' = dir
    · obtain ⟨rfl, rfl⟩ := atE
      exact fun _ => newSeen
    · rw [if_neg atE]
      exact fun known => seen _ (walked.known e eInside dir' eNext known)
  · intro e eInside eVisited idle dir'
    have notNew : e ≠ move dir c := fun equal => idle (equal ▸ Set.mem_insert _ _)
    rw [visited_setVisited, if_neg notNew, visited_setSide] at eVisited
    rw [side_setVisited, side_setSide_apply]
    split
    · decide
    · exact walked.finished e eInside eVisited (fun isActive => idle (Set.mem_insert_of_mem _ isActive)) dir'
  · rw [openings_enter inside next]
    exact walked.acyclic.sup_pendant (spot_ne_next inside next) (walked.isolated ⟨move dir c, next⟩ unvisited)
  · exact walked.linked_enter inside visited next

/-! ### The walk -/

/-- The rooms still to be visited. -/
def unvisited (numRows numCols : Int) (maze : Rooms) : Finset Cell :=
  (grid numRows numCols).filter fun c => (maze c).visited = 0

/-- What a walk leaves of the rooms that were visited before it. -/
structure Later (numRows numCols : Int) (maze maze' : Rooms) : Prop where
  kept : ∀ c ∈ grid numRows numCols, (maze c).visited = 1 → maze' c = maze c
  flags : ∀ c ∈ grid numRows numCols, (maze' c).visited = 0 → (maze c).visited = 0

theorem card_unvisited_le (flags : ∀ c ∈ grid numRows numCols, (maze' c).visited = 0 → (maze c).visited = 0) :
    (unvisited numRows numCols maze').card ≤ (unvisited numRows numCols maze).card := by
  apply Finset.card_le_card
  intro e member
  obtain ⟨inside, still⟩ := Finset.mem_filter.mp member
  exact Finset.mem_filter.mpr ⟨inside, flags e inside still⟩

theorem card_unvisited_lt (inside : c ∈ grid numRows numCols) (fresh : (maze c).visited = 0) :
    (unvisited numRows numCols (setVisited maze c)).card < (unvisited numRows numCols maze).card := by
  apply Finset.card_lt_card
  refine (Finset.ssubset_iff_of_subset ?_).mpr ⟨c, Finset.mem_filter.mpr ⟨inside, fresh⟩, ?_⟩
  · intro e member
    obtain ⟨eInside, still⟩ := Finset.mem_filter.mp member
    rw [visited_setVisited] at still
    split at still
    · omega
    · exact Finset.mem_filter.mpr ⟨eInside, still⟩
  · intro member
    have still := (Finset.mem_filter.mp member).2
    rw [visited_setVisited, if_pos rfl] at still
    omega

/-- What a walk from an unvisited room does, with enough depth left. -/
def Walks (numRows numCols : Int) (walk : Int → Int → Rooms × Nat → Option (Rooms × Nat)) (depth : Nat) : Prop :=
  ∀ (maze : Rooms) (drawn : Nat) (active : Set Cell) (c : Cell), c ∈ grid numRows numCols → (maze c).visited = 0 →
    (∀ dir, (maze c).side dir = -1) → Walked numRows numCols (setVisited maze c) (insert c active) →
    (unvisited numRows numCols maze).card ≤ depth →
    ∃ maze' drawn', walk c.1 c.2 (maze, drawn) = some (maze', drawn') ∧ Walked numRows numCols maze' active ∧
      Later numRows numCols maze maze' ∧ (maze' c).visited = 1

/-- The state of the loop in room `c`: the sides in `rest` are still undetermined. -/
structure InRoom (numRows numCols : Int) (maze : Rooms) (active : Set Cell) (c : Cell) (rest : List Direction) : Prop where
  walked : Walked numRows numCols maze (insert c active)
  inside : c ∈ grid numRows numCols
  visited : (maze c).visited = 1
  unknown : ∀ dir ∈ rest, (maze c).side dir = -1
  known : ∀ dir, dir ∉ rest → (maze c).side dir ≠ -1

variable {rest : List Direction} {walk : Int → Int → Rooms × Nat → Option (Rooms × Nat)} {depth : Nat}

theorem InRoom.next {value : Int} (room : InRoom numRows numCols maze active c (dir :: rest)) (fresh : dir ∉ rest)
    (walked : Walked numRows numCols maze' (insert c active)) (binary : value ≠ -1)
    (same : maze' c = (maze c).setSide dir value) : InRoom numRows numCols maze' active c rest := by
  refine ⟨walked, room.inside, ?_, ?_, ?_⟩
  · rw [same, setSide_visited]
    exact room.visited
  · intro dir' member
    have different : dir' ≠ dir := fun equal => fresh (equal ▸ member)
    rw [same, side_setSide, if_neg different]
    exact room.unknown dir' (List.mem_cons_of_mem _ member)
  · intro dir' done
    rw [same, side_setSide]
    split
    · exact binary
    · rename_i different
      exact room.known dir' (by simp [different, done])

theorem InRoom.toward (room : InRoom numRows numCols maze active c (dir :: rest)) (fresh : dir ∉ rest)
    (walks : Walks numRows numCols walk depth) (enough : (unvisited numRows numCols maze).card ≤ depth) (drawn : Nat) :
    ∃ maze' drawn', walkToward numRows numCols walk c (maze, drawn) dir = some (maze', drawn') ∧
      InRoom numRows numCols maze' active c rest ∧
      (∀ e ∈ grid numRows numCols, e ≠ c → (maze e).visited = 1 → maze' e = maze e) ∧
      ∀ e ∈ grid numRows numCols, (maze' e).visited = 0 → (maze e).visited = 0 := by
  obtain ⟨row, col⟩ := room.walked.indexed c room.inside
  have unknown := room.unknown dir List.mem_cons_self
  have neighbor : getNeighbor numRows numCols (maze c) dir =
      if move dir c ∈ grid numRows numCols then some (move dir c) else none := getNeighbor_eq room.inside row col
  -- The three cases that record a side without leaving the room.
  have recorded : ∀ value : Int, (value = 0 ∨ value = 1) →
      Walked numRows numCols (setSide maze c dir value) (insert c active) →
      ∃ maze' drawn', some (setSide maze c dir value, drawn) = some (maze', drawn') ∧
        InRoom numRows numCols maze' active c rest ∧
        (∀ e ∈ grid numRows numCols, e ≠ c → (maze e).visited = 1 → maze' e = maze e) ∧
        ∀ e ∈ grid numRows numCols, (maze' e).visited = 0 → (maze e).visited = 0 := by
    intro value binary walked
    refine ⟨_, _, rfl, room.next fresh walked (by omega) setSide_self, ?_, ?_⟩
    · exact fun e _ different _ => setSide_other different
    · exact fun e _ still => by rwa [visited_setSide] at still
  unfold walkToward
  by_cases inside : move dir c ∈ grid numRows numCols
  · rw [neighbor, if_pos inside]
    simp only
    by_cases unvisitedNext : (maze (move dir c)).visited = 0
    · rw [if_pos unvisitedNext]
      have entered := room.walked.enter room.inside room.visited unknown inside unvisitedNext
      have other : move dir c ≠ c := move_ne dir c
      have indexed := room.walked.indexed _ inside
      have nextVisited : (setSide maze c dir 0 (move dir c)).visited = 0 := by
        rw [visited_setSide]
        exact unvisitedNext
      have nextSides : ∀ dir', (setSide maze c dir 0 (move dir c)).side dir' = -1 := by
        intro dir'
        rw [setSide_other other]
        exact room.walked.untouched _ inside unvisitedNext dir'
      have sameCount : (unvisited numRows numCols (setSide maze c dir 0)).card ≤ depth := by
        refine Nat.le_trans (card_unvisited_le fun e _ still => ?_) enough
        rwa [visited_setSide] at still
      obtain ⟨maze', drawn', run, walked, later, _⟩ :=
        walks (setSide maze c dir 0) drawn (insert c active) (move dir c) inside nextVisited nextSides entered sameCount
      have cVisited : (setSide maze c dir 0 c).visited = 1 := by
        rw [visited_setSide]
        exact room.visited
      refine ⟨maze', drawn', ?_, ?_, ?_, ?_⟩
      · rw [setSide_other other, indexed.1, indexed.2]
        exact run
      · have same : maze' c = (maze c).setSide dir 0 := by
          rw [later.kept c room.inside cVisited, setSide_self]
        exact room.next fresh walked (by decide) same
      · intro e eInside different eVisited
        rw [later.kept e eInside (by rwa [visited_setSide]), setSide_other different]
      · intro e eInside still
        have before := later.flags e eInside still
        rwa [visited_setSide] at before
    · have visitedNext : (maze (move dir c)).visited = 1 := (room.walked.flags _ inside).resolve_left unvisitedNext
      rw [if_neg unvisitedNext]
      by_cases known : (maze (move dir c)).side (getOppositeDir dir) ≠ -1
      · rw [if_pos known]
        have binary := (room.walked.values _ inside (getOppositeDir dir)).resolve_left known
        apply recorded _ binary
        exact room.walked.record room.inside room.visited unknown binary (fun outside => absurd inside outside)
          fun _ => ⟨visitedNext, Or.inl rfl⟩
      · rw [if_neg known]
        apply recorded 1 (Or.inr rfl)
        exact room.walked.record room.inside room.visited unknown (Or.inr rfl) (fun _ => rfl)
          fun _ => ⟨visitedNext, Or.inr ⟨rfl, not_not.mp known⟩⟩
  · rw [neighbor, if_neg inside]
    apply recorded 1 (Or.inr rfl)
    exact room.walked.record room.inside room.visited unknown (Or.inr rfl) (fun _ => rfl) fun next => absurd next inside

theorem InRoom.loop (walks : Walks numRows numCols walk depth) :
    ∀ (rest : List Direction) (maze : Rooms) (drawn : Nat), InRoom numRows numCols maze active c rest → rest.Nodup →
      (unvisited numRows numCols maze).card ≤ depth →
      ∃ maze' drawn', rest.foldlM (walkToward numRows numCols walk c) (maze, drawn) = some (maze', drawn') ∧
        InRoom numRows numCols maze' active c [] ∧
        (∀ e ∈ grid numRows numCols, e ≠ c → (maze e).visited = 1 → maze' e = maze e) ∧
        ∀ e ∈ grid numRows numCols, (maze' e).visited = 0 → (maze e).visited = 0 := by
  intro rest
  induction rest with
  | nil =>
    intro maze drawn room _ _
    exact ⟨maze, drawn, rfl, room, fun _ _ _ _ => rfl, fun _ _ still => still⟩
  | cons dir rest ih =>
    intro maze drawn room distinct enough
    obtain ⟨fresh, restDistinct⟩ := List.nodup_cons.mp distinct
    obtain ⟨maze₁, drawn₁, first, room₁, kept₁, flags₁⟩ := room.toward fresh walks enough drawn
    obtain ⟨maze₂, drawn₂, others, room₂, kept₂, flags₂⟩ :=
      ih maze₁ drawn₁ room₁ restDistinct (Nat.le_trans (card_unvisited_le flags₁) enough)
    refine ⟨maze₂, drawn₂, ?_, room₂, ?_, fun e inside still => flags₁ e inside (flags₂ e inside still)⟩
    · rw [List.foldlM_cons, first]
      exact others
    · intro e inside different visited
      have same := kept₁ e inside different visited
      rw [kept₂ e inside different (by rwa [same]), same]

theorem drunkenWalk_walks (rand : Nat → Nat) (depth : Nat) :
    Walks numRows numCols (drunkenWalk rand numRows numCols depth) depth := by
  induction depth with
  | zero =>
    intro maze drawn active c inside fresh _ _ enough
    have member : c ∈ unvisited numRows numCols maze := Finset.mem_filter.mpr ⟨inside, fresh⟩
    exact absurd (Finset.card_pos.mpr ⟨c, member⟩) (by omega)
  | succ depth ih =>
    intro maze drawn active c inside fresh unset walked enough
    have ranged : ¬isInRange c.1 c.2 numRows numCols = 0 := by
      rw [isInRange_eq, if_pos inside]
      exact one_ne_zero
    obtain ⟨distinct, complete⟩ := shuffled rand drawn
    have room : InRoom numRows numCols (setVisited maze c) active c
        (List.ofFn (shuffleArray rand fourDirections drawn).1) := by
      refine ⟨walked, inside, ?_, ?_, ?_⟩
      · rw [visited_setVisited, if_pos rfl]
      · intro dir _
        rw [side_setVisited]
        exact unset dir
      · exact fun dir missing => absurd (complete dir) missing
    have less := card_unvisited_lt inside fresh
    obtain ⟨maze', drawn', run, done, kept, flags⟩ :=
      InRoom.loop ih _ _ (shuffleArray rand fourDirections drawn).2 room distinct (by omega)
    refine ⟨maze', drawn', ?_, ?_, ⟨?_, ?_⟩, done.visited⟩
    · rw [drunkenWalk, if_neg ranged]
      exact run
    · have finished := done.walked
      refine { finished with finished := ?_ }
      intro e eInside eVisited idle dir
      by_cases here : e = c
      · subst here
        exact done.known dir (List.not_mem_nil)
      · exact finished.finished e eInside eVisited (by simp [here, idle]) dir
    · intro e eInside eVisited
      have different : e ≠ c := by
        rintro rfl
        omega
      have same : setVisited maze c e = maze e := Function.update_of_ne different _ _
      rw [kept e eInside different (by rwa [same]), same]
    · intro e eInside still
      have before := flags e eInside still
      rw [visited_setVisited] at before
      split at before
      · omega
      · exact before

/-! ### The finished maze -/

theorem initializeMaze_apply (memory : Rooms) (inside : c ∈ grid numRows numCols) :
    initializeMaze numRows numCols memory c = ⟨c.1, c.2, 0, -1, -1, -1, -1, none⟩ := by
  rw [initializeMaze, forEach_apply inside]

theorem initial_side (memory : Rooms) (inside : c ∈ grid numRows numCols) (dir : Direction) :
    (initializeMaze numRows numCols memory c).side dir = -1 := by
  rw [initializeMaze_apply memory inside]
  cases dir <;> rfl

theorem walked_initial (memory : Rooms) (c : Cell) :
    Walked numRows numCols (setVisited (initializeMaze numRows numCols memory) c) {c} := by
  have sides : ∀ e ∈ grid numRows numCols, ∀ dir,
      (setVisited (initializeMaze numRows numCols memory) c e).side dir = -1 := by
    intro e eInside dir
    rw [side_setVisited, initial_side memory eInside]
  have only : ∀ e ∈ grid numRows numCols, (setVisited (initializeMaze numRows numCols memory) c e).visited = 1 → e = c := by
    intro e eInside visited
    rw [visited_setVisited, initializeMaze_apply memory eInside] at visited
    by_contra different
    rw [if_neg different] at visited
    cases visited
  have closed : openings numRows numCols (setVisited (initializeMaze numRows numCols memory) c) = ⊥ := by
    ext a b
    simp only [SimpleGraph.bot_adj, iff_false]
    rintro ⟨dir, _, opened | opened⟩
    · rw [sides a a.2] at opened
      cases opened
    · rw [sides b b.2] at opened
      cases opened
  refine ⟨?_, ?_, fun e eInside dir => Or.inl (sides e eInside dir), fun e eInside _ dir => sides e eInside dir, ?_, ?_, ?_,
    ?_, ?_, ?_⟩
  · intro e eInside
    apply indexed_setVisited
    rw [initializeMaze_apply memory eInside]
    exact ⟨rfl, rfl⟩
  · intro e eInside
    rw [visited_setVisited, initializeMaze_apply memory eInside]
    split
    · exact Or.inr rfl
    · exact Or.inl rfl
  · intro e eInside dir _
    rw [sides e eInside]
    decide
  · exact fun e eInside dir _ known => absurd (sides e eInside dir) known
  · exact fun e eInside dir _ known => absurd (sides e eInside dir) known
  · exact fun e eInside visited idle => absurd (only e eInside visited) idle
  · rw [closed]
    exact SimpleGraph.isAcyclic_bot
  · intro a b aVisited bVisited
    have same : a = b := Subtype.ext ((only a a.2 aVisited).trans (only b b.2 bVisited).symm)
    rw [same]

/-- When no room is active any more, the walk has been everywhere. -/
theorem Walked.perfect (walked : Walked numRows numCols maze ∅) (corner : ((0, 0) : Cell) ∈ grid numRows numCols)
    (entered : (maze (0, 0)).visited = 1) : Perfect numRows numCols maze := by
  have determined : ∀ e ∈ grid numRows numCols, (maze e).visited = 1 → ∀ dir, (maze e).side dir ≠ -1 :=
    fun e inside visited => walked.finished e inside visited (Set.notMem_empty e)
  have visited : ∀ e ∈ grid numRows numCols, (maze e).visited = 1 := by
    refine grid_induction entered ?_
    intro e inside dir next eVisited
    exact walked.known e inside dir next (determined e inside eVisited dir)
  have walls : ∀ e ∈ grid numRows numCols, ∀ dir, (maze e).side dir = 0 ∨ (maze e).side dir = 1 :=
    fun e inside dir => (walked.values e inside dir).resolve_left (determined e inside (visited e inside) dir)
  have nonempty : Nonempty (Spot numRows numCols) := ⟨⟨(0, 0), corner⟩⟩
  have tree : (openings numRows numCols maze).IsTree :=
    ⟨⟨fun a b => walked.linked a b (visited a a.2) (visited b b.2)⟩, walked.acyclic⟩
  refine ⟨visited, walls, ?_, ?_, tree, ?_⟩
  · intro e inside dir outside
    exact (walls e inside dir).resolve_left (walked.border e inside dir outside)
  · intro e inside dir next
    exact walked.agree e inside dir next (determined e inside (visited e inside) dir)
      (determined _ next (visited _ next) _)
  · rw [(SimpleGraph.isTree_iff_connected_and_card.mp tree).2, Nat.card_eq_fintype_card, Fintype.card_coe,
      card_grid_of_mem corner]

/-- Whatever `rand()` returns, the walk of the generator ends and leaves a perfect maze. -/
theorem drunkenWalk_perfect (rand : Nat → Nat) {numRows numCols : Int} (rows : 0 < numRows) (cols : 0 < numCols)
    (memory : Rooms) {depth : Nat} (enough : (numRows * numCols).toNat ≤ depth) :
    ∃ maze drawn, drunkenWalk rand numRows numCols depth 0 0 (initializeMaze numRows numCols memory, 0) =
      some (maze, drawn) ∧ Perfect numRows numCols maze := by
  have corner : ((0, 0) : Cell) ∈ grid numRows numCols := by
    rw [mem_grid]
    exact ⟨⟨le_refl _, rows⟩, le_refl _, cols⟩
  have fresh : (initializeMaze numRows numCols memory (0, 0)).visited = 0 := by
    rw [initializeMaze_apply memory corner]
  have count : (unvisited numRows numCols (initializeMaze numRows numCols memory)).card ≤ depth := by
    apply Nat.le_trans (Finset.card_filter_le _ _)
    rw [card_grid_of_mem corner]
    exact enough
  have start : Walked numRows numCols _ {(0, 0)} := walked_initial memory (0, 0)
  rw [← insert_empty_eq] at start
  obtain ⟨maze, drawn, run, walked, _, entered⟩ :=
    drunkenWalk_walks rand depth (initializeMaze numRows numCols memory) 0 ∅ (0, 0) corner fresh
      (initial_side memory corner) start count
  exact ⟨maze, drawn, run, walked.perfect corner entered⟩

theorem drunkenWalk_perfect_two_by_three :
    ∃ maze drawn, drunkenWalk (fun k => 7 * k + 5) 2 3 6 0 0
      (initializeMaze 2 3 fun _ => ⟨0, 0, 0, 0, 0, 0, 0, none⟩, 0) = some (maze, drawn) ∧ Perfect 2 3 maze :=
  drunkenWalk_perfect _ (by decide) (by decide) _ (by decide)

end Cs1330.Maze
