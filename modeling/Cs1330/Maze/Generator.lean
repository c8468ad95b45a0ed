import Mathlib.Data.Fin.VecNotation
import Cs1330.Lib.CString
import Cs1330.Maze.Common

/-!
# The generator

`generator.c`. The outcomes of `rand()` are a sequence, and the state of the generator is the
maze with the number of outcomes used. `drunken_walk` recurses at most `depth` deep; `none` means
that this was too little.
-/

namespace Cs1330.Maze

/-- The loop of `shuffle_array` exchanges each entry with a random one. -/
def shuffleArray (rand : Nat → Nat) (directions : Fin 4 → Direction) (drawn : Nat) : (Fin 4 → Direction) × Nat :=
  (List.finRange 4).foldl (fun (directions, drawn) i =>
    let r : Fin 4 := ⟨rand drawn % 4, Nat.mod_lt _ (by decide)⟩
    (Function.update (Function.update directions i (directions r)) r (directions i), drawn + 1)) (directions, drawn)

def fourDirections : Fin 4 → Direction := ![.north, .south, .east, .west]

def setSide (maze : Rooms) (c : Cell) (dir : Direction) (value : Int) : Rooms :=
  Function.update maze c ((maze c).setSide dir value)

def setVisited (maze : Rooms) (c : Cell) : Rooms := Function.update maze c { maze c with visited := 1 }

/-- One round of the loop of `drunken_walk` in the room `c`. -/
def walkToward (numRows numCols : Int) (walk : Int → Int → Rooms × Nat → Option (Rooms × Nat)) (c : Cell)
    (s : Rooms × Nat) (dir : Direction) : Option (Rooms × Nat) :=
  match getNeighbor numRows numCols (s.1 c) dir with
  | none => some (setSide s.1 c dir 1, s.2)
  | some neighbor =>
    if (s.1 neighbor).visited = 0 then
      let maze := setSide s.1 c dir 0
      walk (maze neighbor).row (maze neighbor).col (maze, s.2)
    else if (s.1 neighbor).side (getOppositeDir dir) ≠ -1 then
      some (setSide s.1 c dir ((s.1 neighbor).side (getOppositeDir dir)), s.2)
    else
      some (setSide s.1 c dir 1, s.2)

def drunkenWalk (rand : Nat → Nat) (numRows numCols : Int) : Nat → Int → Int → Rooms × Nat → Option (Rooms × Nat)
  | 0, _, _, _ => none
  | depth + 1, row, col, s =>
    if isInRange row col numRows numCols = 0 then some s
    else
      let (directions, drawn) := shuffleArray rand fourDirections s.2
      (List.ofFn directions).foldlM (walkToward numRows numCols (drunkenWalk rand numRows numCols depth) (row, col))
        (setVisited s.1 (row, col), drawn)

/-! ### The file -/

def encodeRoom (room : Room) : Nat :=
  (if room.upRoom = 1 then 1 else 0) + (if room.downRoom = 1 then 2 else 0) + (if room.leftRoom = 1 then 4 else 0) +
    (if room.rightRoom = 1 then 8 else 0)

def encodeMaze (numRows numCols : Int) (maze : Rooms) (result : Cell → Nat) : Cell → Nat :=
  forEach numRows numCols (fun c _ => encodeRoom (maze c)) result

/-- What `write_encoded_maze_to_file` writes: `%x` for each room, a newline after each row. -/
def writeEncodedMaze (numRows numCols : Int) (encoded : Cell → Nat) : CString :=
  (List.range numRows.toNat).flatMap fun i =>
    ((List.range numCols.toNat).flatMap fun j => (Nat.toDigits 16 (encoded (Int.ofNat i, Int.ofNat j))).map byte) ++
      text "\n"

/-- The maze that `main` walks through; `memory` is the array before it is initialized. -/
def generate (rand : Nat → Nat) (numRows numCols : Int) (depth : Nat) (memory : Rooms) : Option Rooms :=
  (drunkenWalk rand numRows numCols depth 0 0 (initializeMaze numRows numCols memory, 0)).map Prod.fst

/-- `main` from the parsed arguments: the contents of the file, or no file at all. -/
def generatorMain (rand : Nat → Nat) (numRows numCols : Int) (depth : Nat) (memory : Rooms) (result : Cell → Nat) :
    Option (Option CString) :=
  if numRows > 0 ∧ numCols > 0 then do
    let maze ← generate rand numRows numCols depth memory
    return some (writeEncodedMaze numRows numCols (encodeMaze numRows numCols maze result))
  else
    return none

/-! ### Shuffling -/

/-- Exchanging two entries of a permutation of the directions leaves one. -/
theorem shuffleArray_bijective (rand : Nat → Nat) (drawn : Nat) {directions : Fin 4 → Direction}
    (bijective : Function.Bijective directions) : Function.Bijective (shuffleArray rand directions drawn).1 := by
  unfold shuffleArray
  generalize List.finRange 4 = indices
  induction indices generalizing directions drawn with
  | nil => exact bijective
  | cons i rest ih =>
    rw [List.foldl_cons]
    apply ih
    have exchange : ∀ r : Fin 4, Function.update (Function.update directions i (directions r)) r (directions i) =
        directions ∘ Equiv.swap i r := by
      intro r
      funext j
      by_cases isR : j = r
      · subst isR
        simp
      · by_cases isI : j = i
        · subst isI
          simp [isR]
        · simp [isR, isI, Equiv.swap_apply_of_ne_of_ne]
    rw [exchange]
    exact bijective.comp (Equiv.bijective _)

theorem fourDirections_bijective : Function.Bijective fourDirections := by
  constructor
  · decide
  · intro dir
    cases dir with
    | north => exact ⟨0, rfl⟩
    | south => exact ⟨1, rfl⟩
    | east => exact ⟨2, rfl⟩
    | west => exact ⟨3, rfl⟩

theorem shuffled (rand : Nat → Nat) (drawn : Nat) :
    (List.ofFn (shuffleArray rand fourDirections drawn).1).Nodup ∧
      ∀ dir, dir ∈ List.ofFn (shuffleArray rand fourDirections drawn).1 := by
  have bijective := shuffleArray_bijective rand drawn fourDirections_bijective
  refine ⟨List.nodup_ofFn.mpr bijective.1, fun dir => ?_⟩
  obtain ⟨i, isDir⟩ := bijective.2 dir
  exact List.mem_ofFn.mpr ⟨i, isDir⟩

end Cs1330.Maze
