import Cs1330.Maze.Agreement

/-!
# What the search decides

`dfs` on a maze with any walls: it returns 1 exactly when the goal can be reached, and then the
`next` pointers from the start are a simple path to it. `main` does not look at what `dfs`
returned: where there is no path it prints the pointers that the failed search left behind, and
these end too.
-/

namespace Cs1330.Maze

variable {numRows numCols : Int} {full : Bool} {maze maze' : Rooms} {start goal c : Cell} {trail : List Cell} {depth : Nat}

/-! ### More depth -/

theorem tryDirections_deeper {search search' : Int → Int → Rooms × CString → Option (Int × Rooms × CString)}
    (deeper : ∀ row col s result, search row col s = some result → search' row col s = some result)
    (rest : List Direction) : ∀ (s : Rooms × CString) (result : Int × Rooms × CString),
      tryDirections full numRows numCols search c rest s = some result →
      tryDirections full numRows numCols search' c rest s = some result := by
  induction rest with
  | nil => exact fun _ _ run => run
  | cons dir rest ih =>
    intro ⟨maze, file⟩ result run
    rw [tryDirections] at run ⊢
    cases neighbor : getNeighbor numRows numCols (maze c) dir with
    | none =>
      rw [neighbor] at run
      exact ih _ _ run
    | some next =>
      rw [neighbor] at run
      simp only at run ⊢
      by_cases enter : (maze next).visited = 0 ∧ (maze c).side dir = 0
      · rw [if_pos enter] at run ⊢
        obtain ⟨⟨found, maze', file'⟩, first, run⟩ := Option.bind_eq_some_iff.mp run
        apply Option.bind_eq_some_iff.mpr
        refine ⟨(found, maze', file'), deeper _ _ _ _ first, ?_⟩
        by_cases hit : found = 1
        · simp only [hit, ↓reduceIte] at run ⊢
          exact run
        · simp only [hit, ↓reduceIte] at run ⊢
          exact ih _ _ run
      · rw [if_neg enter] at run ⊢
        exact ih _ _ run

/-- A search that returns does the same with more depth. -/
theorem dfs_deeper : ∀ (row col : Int) (s : Rooms × CString) (result : Int × Rooms × CString),
    dfs full numRows numCols goal depth row col s = some result →
    dfs full numRows numCols goal (depth + 1) row col s = some result := by
  induction depth with
  | zero =>
    intro row col s result run
    cases run
  | succ depth ih =>
    intro row col ⟨maze, file⟩ result run
    rw [dfs] at run ⊢
    by_cases isGoal : row = goal.1 ∧ col = goal.2
    · simp only [isGoal, and_self, ↓reduceIte] at run ⊢
      exact run
    · rw [if_neg isGoal] at run ⊢
      exact tryDirections_deeper ih _ _ _ run

/-! ### Reachability -/

theorem reaches_of_chain (trail : List Cell) : ∀ c, (c :: trail).IsChain (Passage numRows numCols maze) →
    (c :: trail).getLast? = some goal → Relation.ReflTransGen (Passage numRows numCols maze) c goal := by
  induction trail with
  | nil =>
    intro c _ isLast
    obtain rfl : c = goal := by simpa using isLast
    exact .refl
  | cons d rest ih =>
    intro c chain isLast
    obtain ⟨passage, chain⟩ := List.isChain_cons_cons.mp chain
    rw [List.getLast?_cons_cons] at isLast
    exact .head passage (ih d chain isLast)

theorem Searched.found_iff {found : Int} (searched : Searched numRows numCols goal maze maze' start found trail)
    (fresh : ∀ c ∈ grid numRows numCols, (maze c).visited = 0) :
    found = 1 ↔ Relation.ReflTransGen (Passage numRows numCols maze) start goal := by
  constructor
  · intro hit
    rcases searched.outcome with ⟨_, isLast⟩ | ⟨missed, _⟩
    · exact reaches_of_chain trail start searched.route.passages isLast
    · omega
  · intro linked
    exact (searched.reaches fresh linked).1

/-- A maze as `main` hands it to `dfs`. -/
structure Blank (numRows numCols : Int) (maze : Rooms) : Prop where
  indexed : ∀ c ∈ grid numRows numCols, (maze c).row = c.1 ∧ (maze c).col = c.2
  fresh : ∀ c ∈ grid numRows numCols, (maze c).visited = 0
  unlinked : ∀ c ∈ grid numRows numCols, (maze c).next = none

theorem Blank.searched (full : Bool) (blank : Blank numRows numCols maze) (startInside : start ∈ grid numRows numCols)
    (goalInside : goal ∈ grid numRows numCols) (enough : (numRows * numCols).toNat < depth) (file : CString) :
    ∃ found maze' file' trail, dfs full numRows numCols goal depth start.1 start.2 (maze, file) = some (found, maze', file') ∧
      Searched numRows numCols goal maze maze' start found trail ∧ (full = false → file' = file) := by
  have ready : Ready numRows numCols goal maze :=
    ⟨blank.indexed, fun c inside => .inl (blank.fresh c inside), blank.fresh goal goalInside,
      fun c inside _ => blank.unlinked c inside⟩
  have count : (unvisited numRows numCols maze).card < depth := by
    apply Nat.lt_of_le_of_lt (Finset.card_filter_le _ _)
    rw [card_grid_of_mem startInside]
    exact enough
  exact dfs_searches full goal depth maze file start startInside ready (blank.fresh start startInside) count

/-- The search does not depend on how much more depth it has than rooms. -/
theorem Blank.searched_all (full : Bool) (blank : Blank numRows numCols maze) (startInside : start ∈ grid numRows numCols)
    (goalInside : goal ∈ grid numRows numCols) (file : CString) :
    ∃ found maze' file' trail,
      (∀ depth, (numRows * numCols).toNat < depth →
        dfs full numRows numCols goal depth start.1 start.2 (maze, file) = some (found, maze', file')) ∧
      Searched numRows numCols goal maze maze' start found trail := by
  obtain ⟨found, maze', file', trail, run, searched, _⟩ :=
    blank.searched full startInside goalInside (Nat.lt_succ_self _) file
  refine ⟨found, maze', file', trail, ?_, searched⟩
  intro depth enough
  induction depth, enough using Nat.le_induction with
  | base => exact run
  | succ depth _ ih => exact dfs_deeper _ _ _ _ ih

theorem Searched.found_cases {found : Int} (searched : Searched numRows numCols goal maze maze' start found trail) :
    found = 0 ∨ found = 1 := by
  rcases searched.outcome with ⟨hit, _⟩ | ⟨missed, _⟩
  · exact .inr hit
  · exact .inl missed

/-- With any depth above the number of rooms `dfs` returns, the same each time: 1 if there is a way
through sides that are open in the room they lead out of, and then `next` leads along one that
visits no room twice and ends at the goal. -/
theorem dfs_decides (full : Bool) (blank : Blank numRows numCols maze) (startInside : start ∈ grid numRows numCols)
    (goalInside : goal ∈ grid numRows numCols) (file : CString) :
    ∃ found maze' file',
      (∀ depth, (numRows * numCols).toNat < depth →
        dfs full numRows numCols goal depth start.1 start.2 (maze, file) = some (found, maze', file')) ∧
      (found = 0 ∨ found = 1) ∧
      (found = 1 ↔ Relation.ReflTransGen (Passage numRows numCols maze) start goal) ∧
      (found = 1 → ∃ trail, Trail maze' start trail ∧ (start :: trail).Nodup ∧
        (start :: trail).IsChain (Passage numRows numCols maze) ∧ (start :: trail).getLast? = some goal) := by
  obtain ⟨found, maze', file', trail, run, searched⟩ := blank.searched_all full startInside goalInside file
  refine ⟨found, maze', file', run, searched.found_cases, searched.found_iff blank.fresh, ?_⟩
  intro hit
  rcases searched.outcome with ⟨_, isLast⟩ | ⟨missed, _⟩
  · exact ⟨trail, searched.route.follows, searched.route.distinct, searched.route.passages, isLast⟩
  · omega

/-- Two rooms with an opening that only the first one records. -/
def oneWay : Rooms := fun c => ⟨c.1, c.2, 0, 1, 1, 1, if c = (0, 0) then 0 else 1, none⟩

theorem blank_oneWay : Blank 1 2 oneWay := ⟨fun _ _ => ⟨rfl, rfl⟩, fun _ _ => rfl, fun _ _ => rfl⟩

theorem dfs_decides_oneWay : ∃ found maze' file',
    dfs false 1 2 (0, 1) 3 0 0 (oneWay, []) = some (found, maze', file') ∧
    (found = 1 ↔ Relation.ReflTransGen (Passage 1 2 oneWay) (0, 0) (0, 1)) := by
  have startInside : ((0, 0) : Cell) ∈ grid 1 2 := mem_grid.mpr (by decide)
  have goalInside : ((0, 1) : Cell) ∈ grid 1 2 := mem_grid.mpr (by decide)
  obtain ⟨found, maze', file', run, _, decides, _⟩ := dfs_decides false blank_oneWay startInside goalInside []
  exact ⟨found, maze', file', run 3 (by decide), decides⟩

/-! ### The chain of `next` -/

/-- Whether `dfs` found the goal or not, the pointers from the start come to an end and to no room
twice, so `print_pruned_path` returns and prints at most one line for each room of the maze. -/
theorem next_chain_finite (full : Bool) (blank : Blank numRows numCols maze) (startInside : start ∈ grid numRows numCols)
    (goalInside : goal ∈ grid numRows numCols) (file : CString) :
    ∃ found maze' file' trail,
      (∀ depth, (numRows * numCols).toNat < depth →
        dfs full numRows numCols goal depth start.1 start.2 (maze, file) = some (found, maze', file')) ∧
      (found = 0 ∨ found = 1) ∧ Trail maze' start trail ∧ (start :: trail).Nodup ∧
      ((start :: trail).length : Int) ≤ numRows * numCols ∧
      ∀ rounds, (start :: trail).length ≤ rounds → ∀ path,
        printPrunedPath maze' rounds (some start) path = some (path ++ (start :: trail).flatMap line) := by
  obtain ⟨found, maze', file', trail, run, searched⟩ := blank.searched_all full startInside goalInside file
  refine ⟨found, maze', file', trail, run, searched.found_cases, searched.route.follows, searched.route.distinct, ?_, ?_⟩
  · have bounds := mem_grid.mp startInside
    have length := searched.route.length_lt
    have area : 0 ≤ numRows * numCols := Int.mul_nonneg (by omega) (by omega)
    rw [card_grid_of_mem startInside] at length
    rw [List.length_cons]
    omega
  · intro rounds enough path
    exact searched.prints (Nat.lt_of_succ_le enough) path

/-- Three rooms in a row, with a wall in front of the last one. -/
def cutOff : Rooms := fun c => ⟨c.1, c.2, 0, 1, 1, if c = (0, 1) then 0 else 1, if c = (0, 0) then 0 else 1, none⟩

theorem blank_cutOff : Blank 1 3 cutOff := ⟨fun _ _ => ⟨rfl, rfl⟩, fun _ _ => rfl, fun _ _ => rfl⟩

/-- The search fails and leaves the pointer to the second room behind. -/
theorem next_chain_finite_cutOff : ∃ maze' file' trail,
    dfs false 1 3 (0, 2) 4 0 0 (cutOff, []) = some (0, maze', file') ∧ Trail maze' (0, 0) trail ∧
    printPrunedPath maze' 3 (some (0, 0)) [] = some (((0, 0) :: trail).flatMap line) := by
  have startInside : ((0, 0) : Cell) ∈ grid 1 3 := mem_grid.mpr (by decide)
  have goalInside : ((0, 2) : Cell) ∈ grid 1 3 := mem_grid.mpr (by decide)
  obtain ⟨found, maze', file', trail, run, _, follows, _, length, prints⟩ :=
    next_chain_finite false blank_cutOff startInside goalInside []
  have missed : (dfs false 1 3 (0, 2) 4 0 0 (cutOff, [])).map Prod.fst = some 0 := by decide +kernel
  rw [run 4 (by decide)] at missed
  obtain rfl := Option.some.inj missed
  exact ⟨maze', file', trail, run 4 (by decide), follows, prints 3 (by omega) []⟩

/-! ### The path file -/

/-- A path file holds a way from the start to the goal, or nothing when there is none. -/
def Solution (numRows numCols : Int) (maze : Rooms) (start goal : Cell) (path : CString) : Prop :=
  ∃ rooms : List Cell, path = rooms.flatMap line ∧
    (rooms.head? = some start ∧ rooms.getLast? = some goal ∧ rooms.IsChain (Passage numRows numCols maze) ∨
      rooms = [] ∧ ¬Relation.ReflTransGen (Passage numRows numCols maze) start goal)

theorem line_ne_nil (c : Cell) : line c ≠ [] := by
  intro empty
  have last : byte '\n' ∈ line c := by simp [line, text]
  rw [empty] at last
  cases last

/-- The start is printed in any case, so the file is a solution only if there is one. -/
theorem solution_iff (chain : Relation.ReflTransGen (Passage numRows numCols maze) start goal →
      (start :: trail).getLast? = some goal ∧ (start :: trail).IsChain (Passage numRows numCols maze)) :
    Solution numRows numCols maze start goal ((start :: trail).flatMap line) ↔
      Relation.ReflTransGen (Passage numRows numCols maze) start goal := by
  constructor
  · intro solution
    obtain ⟨rooms, printed, ⟨first, last, passages⟩ | ⟨rfl, _⟩⟩ := solution
    · obtain ⟨rest, rfl⟩ := List.head?_eq_some_iff.mp first
      exact reaches_of_chain rest start passages last
    · rw [List.flatMap_cons, List.flatMap_nil] at printed
      exact absurd (List.append_eq_nil_iff.mp printed).1 (line_ne_nil start)
  · intro linked
    obtain ⟨last, passages⟩ := chain linked
    exact ⟨start :: trail, rfl, .inl ⟨rfl, last, passages⟩⟩

theorem decoded_blank (memory : Rooms) (encoded : Cell → Nat) :
    Blank numRows numCols (decodeMaze numRows numCols (initializeMaze numRows numCols memory) encoded) := by
  constructor
  · intro c inside
    rw [decoded_apply memory inside]
    exact ⟨rfl, rfl⟩
  · intro c inside
    rw [decoded_apply memory inside]
    rfl
  · intro c inside
    rw [decoded_apply memory inside]
    rfl

/-- On a maze file that was read the `PRUNED` build writes a path. It is a solution if and only if
the goal can be reached. -/
theorem solver_prints_solution_iff {memory : Rooms} {encoded encoded' junk : Cell → Nat} {content : CString}
    (startInside : start ∈ grid numRows numCols) (goalInside : goal ∈ grid numRows numCols)
    (enough : (numRows * numCols).toNat < depth)
    (read : readEncodedMaze numRows numCols junk content encoded = (0, encoded')) :
    ∃ found path, solverMain false numRows numCols start goal depth memory encoded junk content =
        some (.wrote found (text "PRUNED\n" ++ path)) ∧
      (Solution numRows numCols (decodeMaze numRows numCols (initializeMaze numRows numCols memory) encoded') start goal path ↔
        Relation.ReflTransGen
          (Passage numRows numCols (decodeMaze numRows numCols (initializeMaze numRows numCols memory) encoded')) start goal) := by
  have blank : Blank numRows numCols (decodeMaze numRows numCols (initializeMaze numRows numCols memory) encoded') :=
    decoded_blank memory encoded'
  obtain ⟨found, maze', file, trail, run, searched, quiet⟩ :=
    blank.searched false startInside goalInside enough (text "PRUNED\n")
  refine ⟨found, (start :: trail).flatMap line, ?_, ?_⟩
  · have length := searched.route.length_lt
    rw [card_grid_of_mem startInside] at length
    have printed : printPrunedPath maze' depth (some start) file = _ := searched.prints (by omega) file
    rw [solverMain_reads startInside goalInside read, run]
    show (printPrunedPath maze' depth (some start) file >>= fun path => some (SolverExit.wrote found path)) = _
    rw [printed, quiet rfl]
    rfl
  · apply solution_iff
    intro linked
    exact ⟨(searched.reaches blank.fresh linked).2, searched.route.passages⟩

/-- Two rooms with an opening between them. -/
theorem solver_prints_solution_iff_opening : ∃ encoded' found path,
    readEncodedMaze 1 2 (fun _ => 0) (text "7b\n") (fun _ => 0) = (0, encoded') ∧
    solverMain false 1 2 (0, 0) (0, 1) 3 oneWay (fun _ => 0) (fun _ => 0) (text "7b\n") =
      some (.wrote found (text "PRUNED\n" ++ path)) ∧
    (Solution 1 2 (decodeMaze 1 2 (initializeMaze 1 2 oneWay) encoded') (0, 0) (0, 1) path ↔
      Relation.ReflTransGen (Passage 1 2 (decodeMaze 1 2 (initializeMaze 1 2 oneWay) encoded')) (0, 0) (0, 1)) := by
  have startInside : ((0, 0) : Cell) ∈ grid 1 2 := mem_grid.mpr (by decide)
  have goalInside : ((0, 1) : Cell) ∈ grid 1 2 := mem_grid.mpr (by decide)
  obtain ⟨found, path, run, solved⟩ := solver_prints_solution_iff startInside goalInside
    (show ((1 : Int) * 2).toNat < 3 by decide)
    (show readEncodedMaze 1 2 (fun _ => 0) (text "7b\n") (fun _ => 0) = (0, _) from rfl)
  exact ⟨_, found, path, rfl, run, solved⟩

theorem walled_apart {maze : Rooms} (walled : ∀ dir, (maze start).side dir ≠ 0) (different : start ≠ goal) :
    ¬Relation.ReflTransGen (Passage numRows numCols maze) start goal := by
  intro linked
  rcases linked.cases_head with same | ⟨_, ⟨_, _, dir, _, opened⟩, _⟩
  · exact different same
  · exact walled dir opened

/-- Two rooms with a wall between them: the start is printed although there is no way to the goal. -/
theorem start_printed_without_path :
    (readEncodedMaze 1 2 (fun _ => 0) (text "ff\n") (fun _ => 0)).1 = 0 ∧
    solverMain false 1 2 (0, 0) (0, 1) 3 oneWay (fun _ => 0) (fun _ => 0) (text "ff\n") =
      some (.wrote 0 (text "PRUNED\n" ++ text "0, 0\n")) ∧
    ¬Solution 1 2 (decodeMaze 1 2 (initializeMaze 1 2 oneWay)
      (readEncodedMaze 1 2 (fun _ => 0) (text "ff\n") (fun _ => 0)).2) (0, 0) (0, 1) (text "0, 0\n") := by
  have walled : ∀ dir, ((decodeMaze 1 2 (initializeMaze 1 2 oneWay)
      (readEncodedMaze 1 2 (fun _ => 0) (text "ff\n") (fun _ => 0)).2) (0, 0)).side dir ≠ 0 := by
    intro dir
    cases dir <;> decide +kernel
  have apart : ¬Relation.ReflTransGen (Passage 1 2 _) (0, 0) (0, 1) := walled_apart walled (by decide)
  have printed : text "0, 0\n" = [((0, 0) : Cell)].flatMap line := by decide
  refine ⟨by decide, by decide +kernel, ?_⟩
  rw [printed, solution_iff fun linked => absurd linked apart]
  exact apart

end Cs1330.Maze
