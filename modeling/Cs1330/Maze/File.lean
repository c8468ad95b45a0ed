import Mathlib.Tactic.IntervalCases
import Cs1330.Maze.Solver

/-!
# The maze file

Each room is one hexadecimal digit, a bit for each wall. The solver reads back what the generator
has written, whatever its arrays held before.
-/

namespace Cs1330.Maze

theorem encodeRoom_lt (room : Room) : encodeRoom room < 16 := by
  unfold encodeRoom
  split <;> split <;> split <;> split <;> decide

theorem side_createRoomConnections {room : Room} (walls : ∀ dir, room.side dir = 0 ∨ room.side dir = 1) (other : Room)
    (dir : Direction) : (createRoomConnections other (encodeRoom room)).side dir = room.side dir := by
  obtain ⟨row, col, visited, up, down, left, right, next⟩ := room
  have north : up = 0 ∨ up = 1 := walls .north
  have south : down = 0 ∨ down = 1 := walls .south
  have west : left = 0 ∨ left = 1 := walls .west
  have east : right = 0 ∨ right = 1 := walls .east
  rcases north with rfl | rfl <;> rcases south with rfl | rfl <;> rcases west with rfl | rfl <;>
    rcases east with rfl | rfl <;> cases dir <;> simp [createRoomConnections, encodeRoom, Room.side]

theorem encodeRoom_createRoomConnections (room : Room) {hex : Nat} (small : hex < 16) :
    encodeRoom (createRoomConnections room hex) = hex := by
  interval_cases hex <;> rfl

/-- The character that `%x` writes for a value below 16. -/
def hexDigit (value : Nat) : UInt8 := byte (Nat.digitChar value)

theorem toDigits_small {value : Nat} (small : value < 16) : (Nat.toDigits 16 value).map byte = [hexDigit value] := by
  rw [Nat.toDigits_of_lt_base small]
  rfl

theorem hexValue_hexDigit {value : Nat} (small : value < 16) : hexValue (hexDigit value) = some value := by
  interval_cases value <;> decide

theorem isspace_hexDigit {value : Nat} (small : value < 16) : isspace (hexDigit value) = false := by
  interval_cases value <;> decide

/-- `fscanf` reads the digits of the rooms in `list` from `input` and leaves `rest`. -/
inductive Reads (encoded : Cell → Nat) : List Cell → CString → CString → Prop
  | done (input : CString) : Reads encoded [] input input
  | digit {c : Cell} {list : List Cell} {input middle rest : CString} :
      encoded c < 16 → input.dropWhile isspace = hexDigit (encoded c) :: middle → Reads encoded list middle rest →
      Reads encoded (c :: list) input rest

variable {encoded : Cell → Nat} {list list' : List Cell} {input middle rest blank : CString}

theorem Reads.append (first : Reads encoded list input middle) (second : Reads encoded list' middle rest) :
    Reads encoded (list ++ list') input rest := by
  induction first with
  | done => exact second
  | digit small found _ ih => exact .digit small found (ih second)

theorem dropWhile_blank (white : ∀ c ∈ blank, isspace c = true) {value : Nat} (small : value < 16) :
    (blank ++ hexDigit value :: rest).dropWhile isspace = hexDigit value :: rest := by
  rw [List.dropWhile_append_of_pos white, List.dropWhile_cons_of_neg (by simp [isspace_hexDigit small])]

theorem reads_row (list : List Cell) (small : ∀ c ∈ list, encoded c < 16) (blank : CString)
    (white : ∀ c ∈ blank, isspace c = true) (nonempty : list ≠ []) :
    Reads encoded list (blank ++ (list.map fun c => hexDigit (encoded c)) ++ rest) rest := by
  induction list generalizing blank with
  | nil => exact (nonempty rfl).elim
  | cons c list ih =>
    rw [List.map_cons, List.append_assoc, List.cons_append]
    have headSmall := small c List.mem_cons_self
    refine .digit headSmall (dropWhile_blank white headSmall) ?_
    by_cases last : list = []
    · subst last
      exact .done rest
    · exact ih (fun d member => small d (List.mem_cons_of_mem _ member)) [] (by simp) last

/-- A row of the grid. -/
def rowCells (numCols : Int) (i : Nat) : List Cell := (List.range numCols.toNat).map fun j => (Int.ofNat i, Int.ofNat j)

theorem written_row {numCols : Int} {i : Nat} (small : ∀ c ∈ rowCells numCols i, encoded c < 16) :
    ((List.range numCols.toNat).flatMap fun j => (Nat.toDigits 16 (encoded (Int.ofNat i, Int.ofNat j))).map byte) =
      (rowCells numCols i).map fun c => hexDigit (encoded c) := by
  rw [rowCells, List.map_map, List.map_eq_flatMap]
  refine List.flatMap_congr fun j member => ?_
  exact toDigits_small (small _ (List.mem_map_of_mem member))

theorem isspace_newline : ∀ c ∈ text "\n", isspace c = true := by
  intro c member
  obtain rfl : c = byte '\n' := by simpa [text] using member
  rfl

theorem reads_written {numCols : Int} (cols : 0 < numCols) (rows : List Nat)
    (small : ∀ i ∈ rows, ∀ c ∈ rowCells numCols i, encoded c < 16) (blank : CString)
    (white : ∀ c ∈ blank, isspace c = true) :
    ∃ rest, Reads encoded (rows.flatMap (rowCells numCols))
      (blank ++ rows.flatMap fun i => ((List.range numCols.toNat).flatMap fun j =>
        (Nat.toDigits 16 (encoded (Int.ofNat i, Int.ofNat j))).map byte) ++ text "\n") rest := by
  induction rows generalizing blank with
  | nil => exact ⟨blank, by simpa using Reads.done blank⟩
  | cons i rows ih =>
    obtain ⟨rest, others⟩ := ih (fun i' member => small i' (List.mem_cons_of_mem _ member)) (text "\n") isspace_newline
    have rowSmall := small i List.mem_cons_self
    have nonempty : rowCells numCols i ≠ [] := by
      simp only [rowCells, ne_eq, List.map_eq_nil_iff, List.range_eq_nil]
      omega
    have whole := (reads_row _ rowSmall blank white nonempty).append others
    rw [List.flatMap_cons, List.flatMap_cons, written_row rowSmall]
    simp only [List.append_assoc] at whole ⊢
    exact ⟨rest, whole⟩

theorem Reads.readRooms (reads : Reads encoded list input rest) (junk array : Cell → Nat) :
    Maze.readRooms junk list input array = (0, list.foldl (fun array c => Function.update array c (encoded c)) array) := by
  induction reads generalizing array with
  | done => rfl
  | @digit c list input middle rest small found _ ih =>
    have scan : fscanf1x input = (1, some (encoded c), middle) := by
      rw [fscanf1x, found]
      simp only [hexValue_hexDigit small]
    rw [Maze.readRooms, scan]
    exact ih _

theorem readEncodedMaze_written {numRows numCols : Int} (cols : 0 < numCols)
    (small : ∀ c ∈ grid numRows numCols, encoded c < 16) (junk array : Cell → Nat) :
    ∃ array', readEncodedMaze numRows numCols junk (writeEncodedMaze numRows numCols encoded) array = (0, array') ∧
      ∀ c ∈ grid numRows numCols, array' c = encoded c := by
  have smallRows : ∀ i ∈ List.range numRows.toNat, ∀ c ∈ rowCells numCols i, encoded c < 16 := by
    intro i iMem c cMem
    apply small c
    exact mem_cells.mp (List.mem_flatMap.mpr ⟨i, iMem, cMem⟩)
  obtain ⟨rest, reads⟩ := reads_written cols (List.range numRows.toNat) smallRows [] (by simp)
  refine ⟨_, reads.readRooms junk array, ?_⟩
  intro c inside
  have stored : forEach numRows numCols (fun c _ => encoded c) array c = encoded c := forEach_apply inside
  exact stored

/-- Walls that were encoded, written, read and decoded are the walls of the maze; values of one
digit survive decoding and encoding, and writing and reading. -/
theorem maze_file_roundTrip {numRows numCols : Int} (cols : 0 < numCols) (memory : Rooms) (result junk array : Cell → Nat) :
    (∀ maze : Rooms, (∀ c ∈ grid numRows numCols, ∀ dir, (maze c).side dir = 0 ∨ (maze c).side dir = 1) →
      ∃ array', readEncodedMaze numRows numCols junk
          (writeEncodedMaze numRows numCols (encodeMaze numRows numCols maze result)) array = (0, array') ∧
        ∀ c ∈ grid numRows numCols, ∀ dir, (decodeMaze numRows numCols memory array' c).side dir = (maze c).side dir) ∧
    ∀ encoded : Cell → Nat, (∀ c ∈ grid numRows numCols, encoded c < 16) →
      (∀ c ∈ grid numRows numCols,
        encodeMaze numRows numCols (decodeMaze numRows numCols memory encoded) result c = encoded c) ∧
      ∃ array', readEncodedMaze numRows numCols junk (writeEncodedMaze numRows numCols encoded) array = (0, array') ∧
        ∀ c ∈ grid numRows numCols, array' c = encoded c := by
  constructor
  · intro maze walls
    have encoded : ∀ c ∈ grid numRows numCols, encodeMaze numRows numCols maze result c = encodeRoom (maze c) :=
      fun c inside => forEach_apply inside
    have small : ∀ c ∈ grid numRows numCols, encodeMaze numRows numCols maze result c < 16 := by
      intro c inside
      rw [encoded c inside]
      exact encodeRoom_lt _
    obtain ⟨array', read, same⟩ := readEncodedMaze_written cols small junk array
    refine ⟨array', read, ?_⟩
    intro c inside dir
    rw [decodeMaze, forEach_apply inside, same c inside, encoded c inside]
    exact side_createRoomConnections (walls c inside) _ dir
  · intro encoded small
    refine ⟨?_, readEncodedMaze_written cols small junk array⟩
    intro c inside
    rw [encodeMaze, forEach_apply inside, decodeMaze, forEach_apply inside]
    exact encodeRoom_createRoomConnections _ (small c inside)

theorem maze_file_roundTrip_two_by_three :
    writeEncodedMaze 2 3 (fun c => (c.1 * 7 + c.2 * 3).toNat) = text "036\n7ad\n" ∧
    ∃ array', readEncodedMaze 2 3 (fun _ => 1) (text "036\n7ad\n") (fun _ => 2) = (0, array') ∧
      ∀ c ∈ grid 2 3, array' c = (c.1 * 7 + c.2 * 3).toNat := by
  have written : writeEncodedMaze 2 3 (fun c => (c.1 * 7 + c.2 * 3).toNat) = text "036\n7ad\n" := by decide
  have small : ∀ c ∈ grid 2 3, (c.1 * 7 + c.2 * 3).toNat < 16 := by
    intro c inside
    have bounds := mem_grid.mp inside
    omega
  have roundTrip := (maze_file_roundTrip (show (0 : Int) < 3 by decide) (fun _ => ⟨0, 0, 0, 0, 0, 0, 0, none⟩)
    (fun _ => 0) (fun _ => 1) (fun _ => 2)).2 _ small
  rw [written] at roundTrip
  exact ⟨written, roundTrip.2⟩

end Cs1330.Maze
