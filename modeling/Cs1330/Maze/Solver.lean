import Cs1330.Maze.Generator

/-!
# The solver

`solver.c`, in both builds: `full` stands for the `FULL` macro. The recursion of `dfs` and the
loop of `print_pruned_path` are bounded by `depth`; `none` means that this was too little.
-/

namespace Cs1330.Maze

/-! ### The file -/

def createRoomConnections (room : Room) (hex : Nat) : Room :=
  { room with
    upRoom := if hex &&& 1 ≠ 0 then 1 else 0
    downRoom := if hex &&& 2 ≠ 0 then 1 else 0
    leftRoom := if hex &&& 4 ≠ 0 then 1 else 0
    rightRoom := if hex &&& 8 ≠ 0 then 1 else 0 }

def decodeMaze (numRows numCols : Int) (maze : Rooms) (encoded : Cell → Nat) : Rooms :=
  forEach numRows numCols (fun c room => createRoomConnections room (encoded c)) maze

def hexValue (c : UInt8) : Option Nat :=
  if byte '0' ≤ c ∧ c ≤ byte '9' then some (c.toNat - (byte '0').toNat)
  else if byte 'a' ≤ c ∧ c ≤ byte 'f' then some (c.toNat - (byte 'a').toNat + 10)
  else if byte 'A' ≤ c ∧ c ≤ byte 'F' then some (c.toNat - (byte 'A').toNat + 10)
  else none

/-- `fscanf(f, "%1x", ...)`: its result, the value if one was converted, and what is left to read.
A sign is read, but one character has no room for a digit after it. -/
def fscanf1x (input : CString) : Int × Option Nat × CString :=
  match input.dropWhile isspace with
  | [] => (-1, none, [])
  | c :: rest =>
    match hexValue c with
    | some value => (1, some value, rest)
    | none => (0, none, if c = byte '+' ∨ c = byte '-' then rest else c :: rest)

/-- The reading loops of `read_encoded_maze_from_file`; `junk` is what the variable of a round
holds before the conversion. -/
def readRooms (junk : Cell → Nat) : List Cell → CString → (Cell → Nat) → Int × (Cell → Nat)
  | [], _, encoded => (0, encoded)
  | c :: rest, input, encoded =>
    let (err, value, input) := fscanf1x input
    let encoded := Function.update encoded c (value.getD (junk c))
    if err < 0 then (1, encoded) else readRooms junk rest input encoded

def readEncodedMaze (numRows numCols : Int) (junk : Cell → Nat) (content : CString) (encoded : Cell → Nat) :
    Int × (Cell → Nat) :=
  readRooms junk (cells numRows numCols) content encoded

/-! ### Search and output -/

/-- `fprintf(file, "%d, %d\n", row, col)`. -/
def line (c : Cell) : CString := text (toString c.1 ++ ", " ++ toString c.2 ++ "\n")

def setNext (maze : Rooms) (c : Cell) (next : Cell) : Rooms := Function.update maze c { maze c with next := some next }

/-- The loop of `dfs` in the room `c`. -/
def tryDirections (full : Bool) (numRows numCols : Int)
    (search : Int → Int → Rooms × CString → Option (Int × Rooms × CString)) (c : Cell) :
    List Direction → Rooms × CString → Option (Int × Rooms × CString)
  | [], s => some (0, s)
  | dir :: rest, (maze, file) =>
    match getNeighbor numRows numCols (maze c) dir with
    | none => tryDirections full numRows numCols search c rest (maze, file)
    | some neighbor =>
      if (maze neighbor).visited = 0 ∧ (maze c).side dir = 0 then do
        let maze := setNext maze c neighbor
        let (found, maze, file) ← search (maze neighbor).row (maze neighbor).col (maze, file)
        if found = 1 then
          return (1, maze, file)
        tryDirections full numRows numCols search c rest (maze, if full then file ++ line c else file)
      else
        tryDirections full numRows numCols search c rest (maze, file)

def dfs (full : Bool) (numRows numCols : Int) (goal : Cell) :
    Nat → Int → Int → Rooms × CString → Option (Int × Rooms × CString)
  | 0, _, _, _ => none
  | depth + 1, row, col, (maze, file) =>
    let file := if full then file ++ line (row, col) else file
    if row = goal.1 ∧ col = goal.2 then some (1, maze, file)
    else tryDirections full numRows numCols (dfs full numRows numCols goal depth) (row, col)
      [.north, .south, .east, .west] (setVisited maze (row, col), file)

def printPrunedPath (maze : Rooms) : Nat → Option Cell → CString → Option CString
  | _, none, file => some file
  | 0, some _, _ => none
  | rounds + 1, some c, file => printPrunedPath maze rounds (maze c).next (file ++ line ((maze c).row, (maze c).col))

inductive SolverExit where
  /-- a message and `exit(1)` -/
  | badInput
  | readError
  /-- the result of `dfs` and the contents of the path file -/
  | wrote (found : Int) (path : CString)
  deriving DecidableEq, Repr

/-- `main` from the parsed arguments; `memory` and `encoded` are its arrays before they are written. -/
def solverMain (full : Bool) (numRows numCols : Int) (start goal : Cell) (depth : Nat) (memory : Rooms)
    (encoded junk : Cell → Nat) (content : CString) : Option SolverExit :=
  if start.1 < 0 ∨ start.1 ≥ numRows ∨ start.2 < 0 ∨ start.2 ≥ numCols ∨ goal.1 < 0 ∨ goal.1 ≥ numRows ∨ goal.2 < 0 ∨
      goal.2 ≥ numCols then
    some .badInput
  else
    let (err, encoded) := readEncodedMaze numRows numCols junk content encoded
    if err = 1 then some .readError
    else do
      let maze := decodeMaze numRows numCols (initializeMaze numRows numCols memory) encoded
      if full then
        let (found, _, file) ← dfs true numRows numCols goal depth start.1 start.2 (maze, text "FULL\n")
        return .wrote found file
      else
        let (found, maze, file) ← dfs false numRows numCols goal depth start.1 start.2 (maze, text "PRUNED\n")
        return .wrote found (← printPrunedPath maze depth (some start) file)

end Cs1330.Maze
