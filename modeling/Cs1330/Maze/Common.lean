import Mathlib.Algebra.Order.Ring.Int
import Mathlib.Data.Finset.Card
import Mathlib.Data.List.Nodup
import Mathlib.Tactic.Common

/-!
# Mazes

`common.c`: rooms, the grid and its neighbours. An array of rooms is a function on cells, read
and written only in range; a pointer to a room is its cell.
-/

namespace Cs1330.Maze

inductive Direction where
  | north | south | west | east
  deriving DecidableEq, Repr

abbrev Cell := Int × Int

structure Room where
  row : Int
  col : Int
  visited : Int
  upRoom : Int
  downRoom : Int
  leftRoom : Int
  rightRoom : Int
  next : Option Cell
  deriving DecidableEq, Repr

abbrev Rooms := Cell → Room

def isInRange (row col numRows numCols : Int) : Int :=
  if row < 0 ∨ row ≥ numRows ∨ col < 0 ∨ col ≥ numCols then 0 else 1

def getNeighbor (numRows numCols : Int) (room : Room) (dir : Direction) : Option Cell :=
  if isInRange room.row room.col numRows numCols = 0 then none
  else if dir = .north ∧ room.row - 1 ≥ 0 then some (room.row - 1, room.col)
  else if dir = .south ∧ room.row + 1 < numRows then some (room.row + 1, room.col)
  else if dir = .west ∧ room.col - 1 ≥ 0 then some (room.row, room.col - 1)
  else if dir = .east ∧ room.col + 1 < numCols then some (room.row, room.col + 1)
  else none

/-- The order of the nested loops over rows and columns. -/
def cells (numRows numCols : Int) : List Cell :=
  (List.range numRows.toNat).flatMap fun i => (List.range numCols.toNat).map fun j => (Int.ofNat i, Int.ofNat j)

/-- Write every entry of an array from its old value. -/
def forEach {α : Type} (numRows numCols : Int) (write : Cell → α → α) (array : Cell → α) : Cell → α :=
  (cells numRows numCols).foldl (fun array c => Function.update array c (write c (array c))) array

def initializeMaze (numRows numCols : Int) (maze : Rooms) : Rooms :=
  forEach numRows numCols (fun c _ => ⟨c.1, c.2, 0, -1, -1, -1, -1, none⟩) maze

/-- The wall field of a room on a side. -/
def Room.side (room : Room) : Direction → Int
  | .north => room.upRoom
  | .south => room.downRoom
  | .west => room.leftRoom
  | .east => room.rightRoom

def Room.setSide (room : Room) (dir : Direction) (value : Int) : Room :=
  match dir with
  | .north => { room with upRoom := value }
  | .south => { room with downRoom := value }
  | .west => { room with leftRoom := value }
  | .east => { room with rightRoom := value }

def getOppositeDir (dir : Direction) : Direction :=
  if dir = .north then .south
  else if dir = .south then .north
  else if dir = .west then .east
  else .west

/-! ### The grid -/

def grid (numRows numCols : Int) : Finset Cell := (cells numRows numCols).toFinset

def move : Direction → Cell → Cell
  | .north, c => (c.1 - 1, c.2)
  | .south, c => (c.1 + 1, c.2)
  | .west, c => (c.1, c.2 - 1)
  | .east, c => (c.1, c.2 + 1)

variable {numRows numCols : Int} {c : Cell} {dir : Direction}

theorem mem_cells : c ∈ cells numRows numCols ↔ c ∈ grid numRows numCols := List.mem_toFinset.symm

theorem mem_grid : c ∈ grid numRows numCols ↔ (0 ≤ c.1 ∧ c.1 < numRows) ∧ 0 ≤ c.2 ∧ c.2 < numCols := by
  obtain ⟨row, col⟩ := c
  rw [← mem_cells]
  simp only [cells, List.mem_flatMap, List.mem_map, List.mem_range, Prod.mk.injEq]
  constructor
  · rintro ⟨i, iBound, j, jBound, rfl, rfl⟩
    simp only [Int.ofNat_eq_natCast]
    omega
  · rintro ⟨⟨rowLow, rowHigh⟩, colLow, colHigh⟩
    exact ⟨row.toNat, by omega, col.toNat, by omega, Int.toNat_of_nonneg rowLow, Int.toNat_of_nonneg colLow⟩

theorem isInRange_eq (row col : Int) :
    isInRange row col numRows numCols = if (row, col) ∈ grid numRows numCols then 1 else 0 := by
  unfold isInRange
  by_cases inside : (row, col) ∈ grid numRows numCols
  · rw [if_pos inside, if_neg]
    have bounds := mem_grid.mp inside
    omega
  · rw [if_neg inside, if_pos]
    by_contra outside
    apply inside
    rw [mem_grid]
    simp only
    omega

@[simp] theorem move_opposite (dir : Direction) (c : Cell) : move (getOppositeDir dir) (move dir c) = c := by
  cases dir <;> simp [move, getOppositeDir]

@[simp] theorem opposite_opposite (dir : Direction) : getOppositeDir (getOppositeDir dir) = dir := by
  cases dir <;> rfl

theorem move_ne (dir : Direction) (c : Cell) : move dir c ≠ c := by
  obtain ⟨row, col⟩ := c
  cases dir with
  | north => simp only [move, ne_eq, Prod.mk.injEq]; omega
  | south => simp only [move, ne_eq, Prod.mk.injEq]; omega
  | west => simp only [move, ne_eq, Prod.mk.injEq]; omega
  | east => simp only [move, ne_eq, Prod.mk.injEq]; omega

theorem getNeighbor_eq {room : Room} (inside : c ∈ grid numRows numCols) (row : room.row = c.1) (col : room.col = c.2) :
    getNeighbor numRows numCols room dir = if move dir c ∈ grid numRows numCols then some (move dir c) else none := by
  have bounds := mem_grid.mp inside
  have ranged : isInRange room.row room.col numRows numCols ≠ 0 := by
    rw [isInRange_eq, row, col, if_pos inside]
    exact one_ne_zero
  unfold getNeighbor
  rw [if_neg ranged, row, col]
  cases dir <;> simp only [move, mem_grid, reduceCtorEq, false_and, true_and, if_false] <;> congr 1 <;> ext <;> omega

@[simp] theorem side_setSide (room : Room) (dir dir' : Direction) (value : Int) :
    (room.setSide dir value).side dir' = if dir' = dir then value else room.side dir' := by
  cases dir <;> cases dir' <;> rfl

@[simp] theorem setSide_row (room : Room) (dir : Direction) (value : Int) : (room.setSide dir value).row = room.row := by
  cases dir <;> rfl

@[simp] theorem setSide_col (room : Room) (dir : Direction) (value : Int) : (room.setSide dir value).col = room.col := by
  cases dir <;> rfl

@[simp] theorem setSide_visited (room : Room) (dir : Direction) (value : Int) :
    (room.setSide dir value).visited = room.visited := by
  cases dir <;> rfl

/-! ### Loops over the grid -/

theorem cells_nodup (numRows numCols : Int) : (cells numRows numCols).Nodup := by
  refine List.nodup_flatMap.mpr ⟨?_, ?_⟩
  · intro i _
    apply List.nodup_range.map
    intro j j' same
    simpa using same
  · apply List.nodup_range.imp
    intro i i' different c inFirst inSecond
    obtain ⟨j, _, rfl⟩ := List.mem_map.mp inFirst
    obtain ⟨j', _, same⟩ := List.mem_map.mp inSecond
    simp only [Prod.mk.injEq] at same
    exact different (Int.ofNat_inj.mp same.1.symm)

theorem card_grid (numRows numCols : Int) : (grid numRows numCols).card = numRows.toNat * numCols.toNat := by
  rw [grid, List.toFinset_card_of_nodup (cells_nodup _ _), cells, List.length_flatMap]
  simp

theorem card_grid_of_mem (inside : c ∈ grid numRows numCols) : (grid numRows numCols).card = (numRows * numCols).toNat := by
  have bounds := mem_grid.mp inside
  rw [card_grid, Int.toNat_mul (by omega) (by omega)]

theorem foldl_update {α : Type} {write : Cell → α → α} {list : List Cell} (distinct : list.Nodup) (array : Cell → α) (c : Cell) :
    list.foldl (fun array c => Function.update array c (write c (array c))) array c =
      if c ∈ list then write c (array c) else array c := by
  induction list generalizing array with
  | nil => rfl
  | cons a rest ih =>
    obtain ⟨fresh, restDistinct⟩ := List.nodup_cons.mp distinct
    rw [List.foldl_cons, ih restDistinct]
    by_cases isHead : c = a
    · subst isHead
      simp [fresh]
    · simp [isHead]

theorem forEach_apply {α : Type} {write : Cell → α → α} {array : Cell → α} (inside : c ∈ grid numRows numCols) :
    forEach numRows numCols write array c = write c (array c) := by
  rw [forEach, foldl_update (cells_nodup _ _), if_pos (mem_cells.mpr inside)]

/-- Everything in the grid is reached from its corner by steps down and to the right. -/
theorem grid_induction {P : Cell → Prop} (corner : P (0, 0))
    (step : ∀ c ∈ grid numRows numCols, ∀ dir, move dir c ∈ grid numRows numCols → P c → P (move dir c)) :
    ∀ c ∈ grid numRows numCols, P c := by
  have column : ∀ i : Nat, (i : Int) < numRows → 0 < numCols → P (i, 0) := by
    intro i
    induction i with
    | zero => exact fun _ _ => corner
    | succ i ih =>
      intro bound wide
      have inside : ((i : Int), (0 : Int)) ∈ grid numRows numCols := by
        rw [mem_grid]
        simp only
        push_cast at bound
        omega
      have below : move .south ((i : Int), (0 : Int)) ∈ grid numRows numCols := by
        rw [mem_grid]
        simp only [move]
        push_cast at bound
        omega
      exact step _ inside .south below (ih (by push_cast at bound; omega) wide)
  have whole : ∀ j i : Nat, (i : Int) < numRows → (j : Int) < numCols → P (i, j) := by
    intro j
    induction j with
    | zero => exact fun i iBound jBound => column i iBound (by simpa using jBound)
    | succ j ih =>
      intro i iBound jBound
      have inside : ((i : Int), (j : Int)) ∈ grid numRows numCols := by
        rw [mem_grid]
        push_cast at jBound
        simp only
        omega
      have right : move .east ((i : Int), (j : Int)) ∈ grid numRows numCols := by
        rw [mem_grid]
        simp only [move]
        push_cast at jBound
        omega
      exact step _ inside .east right (ih i iBound (by push_cast at jBound; omega))
  rintro ⟨row, col⟩ inside
  obtain ⟨⟨rowLow, rowHigh⟩, colLow, colHigh⟩ := mem_grid.mp inside
  obtain ⟨i, rfl⟩ := Int.eq_ofNat_of_zero_le rowLow
  obtain ⟨j, rfl⟩ := Int.eq_ofNat_of_zero_le colLow
  exact whole j i rowHigh colHigh

end Cs1330.Maze
