import Cs1330.Maze.Dfs
import Cs1330.Maze.File

/-!
# Generator and solver together

The solver on the file of the generator: it searches the maze that was generated, finds the goal
because the openings connect everything, and prints the only simple path there is.
-/

namespace Cs1330.Maze

variable {numRows numCols : Int} {maze maze' : Rooms} {start goal c : Cell} {trail : List Cell}

/-! ### The printed path -/

theorem printPrunedPath_trail (trail : List Cell) :
    ∀ (c : Cell) (rounds : Nat) (file : CString), Trail maze c trail →
      (∀ d ∈ c :: trail, (maze d).row = d.1 ∧ (maze d).col = d.2) → trail.length < rounds →
      printPrunedPath maze rounds (some c) file = some (file ++ (c :: trail).flatMap line) := by
  induction trail with
  | nil =>
    intro c rounds file follows indexed enough
    obtain ⟨rounds, rfl⟩ : ∃ k, rounds = k + 1 := ⟨rounds - 1, by simp only [List.length_nil] at enough; omega⟩
    have ends : (maze c).next = none := follows
    obtain ⟨row, col⟩ := indexed c List.mem_cons_self
    rw [printPrunedPath, ends, row, col, printPrunedPath]
    simp
  | cons d rest ih =>
    intro c rounds file follows indexed enough
    rw [List.length_cons] at enough
    obtain ⟨rounds, rfl⟩ : ∃ k, rounds = k + 1 := ⟨rounds - 1, by omega⟩
    obtain ⟨next, follows⟩ := follows
    obtain ⟨row, col⟩ := indexed c List.mem_cons_self
    rw [printPrunedPath, next, row, col,
      ih d rounds _ follows (fun e member => indexed e (List.mem_cons_of_mem _ member)) (by omega)]
    simp [List.append_assoc]

theorem Route.length_lt (route : Route numRows numCols maze maze' c trail) :
    trail.length < (grid numRows numCols).card := by
  have subset : (c :: trail).toFinset ⊆ grid numRows numCols := by
    intro d member
    exact (route.new d (List.mem_toFinset.mp member)).1
  have bound := Finset.card_le_card subset
  rw [List.toFinset_card_of_nodup route.distinct, List.length_cons] at bound
  omega

/-- After a search the pointers from its room can be printed, whether it came to the goal or not. -/
theorem Searched.prints {found : Int} (searched : Searched numRows numCols goal maze maze' start found trail)
    {rounds : Nat} (enough : trail.length < rounds) (file : CString) :
    printPrunedPath maze' rounds (some start) file = some (file ++ (start :: trail).flatMap line) := by
  refine printPrunedPath_trail trail start rounds file searched.route.follows ?_ enough
  exact fun d member => searched.explored.ready.indexed d (searched.route.new d member).1

/-! ### Routes and paths -/

/-- In a perfect maze an opening is open from both sides. -/
theorem Perfect.passage (perfect : Perfect numRows numCols maze) (a b : Spot numRows numCols) :
    (openings numRows numCols maze).Adj a b ↔ Passage numRows numCols maze a b := by
  constructor
  · rintro ⟨dir, isNext, opened⟩
    refine ⟨a.2, b.2, dir, isNext, ?_⟩
    have shared := perfect.shared a a.2 dir (isNext ▸ b.2)
    rw [isNext] at shared
    rcases opened with here | there
    · exact here
    · rw [shared, there]
  · rintro ⟨_, _, dir, isNext, opened⟩
    exact ⟨dir, isNext, Or.inl opened⟩

theorem Perfect.walk (perfect : Perfect numRows numCols maze) (goalInside : goal ∈ grid numRows numCols)
    (trail : List Cell) :
    ∀ (c : Cell) (inside : c ∈ grid numRows numCols), (c :: trail).IsChain (Passage numRows numCols maze) →
      (c :: trail).getLast? = some goal →
      ∃ p : (openings numRows numCols maze).Walk ⟨c, inside⟩ ⟨goal, goalInside⟩,
        p.support.map Subtype.val = c :: trail := by
  induction trail with
  | nil =>
    intro c inside _ isLast
    obtain rfl : c = goal := by simpa using isLast
    exact ⟨.nil, rfl⟩
  | cons d rest ih =>
    intro c inside chain isLast
    obtain ⟨passage, chain⟩ := List.isChain_cons_cons.mp chain
    rw [List.getLast?_cons_cons] at isLast
    obtain ⟨p, support⟩ := ih d passage.2.1 chain isLast
    refine ⟨.cons ((perfect.passage ⟨c, inside⟩ ⟨d, passage.2.1⟩).mpr passage) p, ?_⟩
    rw [SimpleGraph.Walk.support_cons, List.map_cons, support]

/-- A search that fails has been wherever the passages lead, and not at the goal. -/
theorem Searched.reaches {found : Int} (searched : Searched numRows numCols goal maze maze' start found trail)
    (fresh : ∀ c ∈ grid numRows numCols, (maze c).visited = 0)
    (linked : Relation.ReflTransGen (Passage numRows numCols maze) start goal) :
    found = 1 ∧ (start :: trail).getLast? = some goal := by
  rcases searched.outcome with success | ⟨_, seen, closed⟩
  · exact success
  · have visited : ∀ c, Relation.ReflTransGen (Passage numRows numCols maze) start c → (maze' c).visited = 1 := by
      intro c path
      induction path with
      | refl => exact seen start List.mem_cons_self
      | tail _ passage ih =>
        exact closed _ passage.1 (fun impossible => impossible) ih (fresh _ passage.1) _ passage
    have there := visited goal linked
    have unvisited := searched.explored.ready.goalFree
    omega

/-! ### The decoded maze -/

section
variable {encoded : Cell → Nat}

theorem decoded_apply (memory : Rooms) (inside : c ∈ grid numRows numCols) :
    decodeMaze numRows numCols (initializeMaze numRows numCols memory) encoded c =
      createRoomConnections ⟨c.1, c.2, 0, -1, -1, -1, -1, none⟩ (encoded c) := by
  rw [decodeMaze, forEach_apply inside, initializeMaze_apply memory inside]

theorem decoded_ready (memory : Rooms) (goalInside : goal ∈ grid numRows numCols) :
    Ready numRows numCols goal (decodeMaze numRows numCols (initializeMaze numRows numCols memory) encoded) := by
  refine ⟨?_, ?_, ?_, ?_⟩
  · intro e inside
    rw [decoded_apply memory inside]
    exact ⟨rfl, rfl⟩
  · intro e inside
    rw [decoded_apply memory inside]
    exact Or.inl rfl
  · rw [decoded_apply memory goalInside]
    rfl
  · intro e inside _
    rw [decoded_apply memory inside]
    rfl

theorem Perfect.decoded_side (perfect : Perfect numRows numCols maze) (memory : Rooms)
    (same : ∀ c ∈ grid numRows numCols, encoded c = encodeRoom (maze c)) (inside : c ∈ grid numRows numCols)
    (dir : Direction) :
    (decodeMaze numRows numCols (initializeMaze numRows numCols memory) encoded c).side dir = (maze c).side dir := by
  rw [decoded_apply memory inside, same c inside]
  exact side_createRoomConnections (perfect.walls c inside) _ dir

end

theorem solverMain_reads {depth : Nat} {memory : Rooms} {encoded encoded' junk : Cell → Nat} {content : CString}
    (startInside : start ∈ grid numRows numCols) (goalInside : goal ∈ grid numRows numCols)
    (read : readEncodedMaze numRows numCols junk content encoded = (0, encoded')) :
    solverMain false numRows numCols start goal depth memory encoded junk content = do
      let (found, maze, file) ← dfs false numRows numCols goal depth start.1 start.2
        (decodeMaze numRows numCols (initializeMaze numRows numCols memory) encoded', text "PRUNED\n")
      return .wrote found (← printPrunedPath maze depth (some start) file) := by
  have startBounds := mem_grid.mp startInside
  have goalBounds := mem_grid.mp goalInside
  unfold solverMain
  rw [if_neg (by omega), read]
  rfl

/-- The search in a decoded perfect maze, and the path that is printed from it. -/
theorem Perfect.solved {encoded : Cell → Nat} {depth : Nat} (perfect : Perfect numRows numCols maze)
    (startInside : start ∈ grid numRows numCols) (goalInside : goal ∈ grid numRows numCols) (memory : Rooms)
    (same : ∀ c ∈ grid numRows numCols, encoded c = encodeRoom (maze c)) (enough : (numRows * numCols).toNat < depth) :
    ∃ p : (openings numRows numCols maze).Path ⟨start, startInside⟩ ⟨goal, goalInside⟩,
      (∀ q : (openings numRows numCols maze).Path ⟨start, startInside⟩ ⟨goal, goalInside⟩, q = p) ∧
      (do let (found, maze, file) ← dfs false numRows numCols goal depth start.1 start.2
            (decodeMaze numRows numCols (initializeMaze numRows numCols memory) encoded, text "PRUNED\n")
          return SolverExit.wrote found (← printPrunedPath maze depth (some start) file)) =
        some (.wrote 1 (text "PRUNED\n" ++ (p.1.support.map Subtype.val).flatMap line)) := by
  have ready : Ready numRows numCols goal (decodeMaze numRows numCols (initializeMaze numRows numCols memory) encoded) :=
    decoded_ready memory goalInside
  have fresh : ∀ c ∈ grid numRows numCols,
      (decodeMaze numRows numCols (initializeMaze numRows numCols memory) encoded c).visited = 0 := by
    intro c inside
    rw [decoded_apply memory inside]
    rfl
  have cardinal := card_grid_of_mem startInside
  have count : (unvisited numRows numCols
      (decodeMaze numRows numCols (initializeMaze numRows numCols memory) encoded)).card < depth := by
    apply Nat.lt_of_le_of_lt (Finset.card_filter_le _ _)
    rw [cardinal]
    exact enough
  have passage : ∀ a b, Passage numRows numCols maze a b ↔
      Passage numRows numCols (decodeMaze numRows numCols (initializeMaze numRows numCols memory) encoded) a b := by
    intro a b
    refine and_congr_right fun inside => and_congr_right fun _ => exists_congr fun dir => and_congr_right fun _ => ?_
    rw [perfect.decoded_side memory same inside dir]
  obtain ⟨found, maze', file, trail, run, searched, quiet⟩ :=
    dfs_searches false goal depth _ (text "PRUNED\n") start startInside ready (fresh start startInside) count
  have linked : Relation.ReflTransGen (Passage numRows numCols maze) start goal := by
    have path := (SimpleGraph.reachable_iff_reflTransGen _ _).mp
      (perfect.tree.1.preconnected ⟨start, startInside⟩ ⟨goal, goalInside⟩)
    exact path.lift Subtype.val fun a b adjacent => (perfect.passage a b).mp adjacent
  obtain ⟨rfl, isLast⟩ := searched.reaches fresh (Relation.ReflTransGen.mono (fun a b => (passage a b).mp) _ _ linked)
  obtain ⟨p, support⟩ := perfect.walk goalInside trail start startInside
    (searched.route.passages.imp fun a b => (passage a b).mpr) isLast
  have isPath : p.IsPath := by
    apply SimpleGraph.Walk.IsPath.mk'
    apply List.Nodup.of_map Subtype.val
    rw [support]
    exact searched.route.distinct
  refine ⟨⟨p, isPath⟩, fun q => (perfect.tree.2.subsingleton_path _ _).elim q ⟨p, isPath⟩, ?_⟩
  have length := searched.route.length_lt
  rw [cardinal] at length
  have printed : printPrunedPath maze' depth (some start) file = _ := searched.prints (by omega) file
  rw [run]
  show (printPrunedPath maze' depth (some start) file >>= fun path => some (SolverExit.wrote 1 path)) = _
  rw [printed, quiet rfl, support]
  rfl

/-- The maze that the generator made, the file that it wrote, and what the solver prints for it:
the one simple path from the start to the goal. -/
theorem solver_prints_generated_path (rand : Nat → Nat) {numRows numCols : Int} (rows : 0 < numRows) (cols : 0 < numCols)
    {start goal : Cell} (startInside : start ∈ grid numRows numCols) (goalInside : goal ∈ grid numRows numCols)
    (memory memory' : Rooms) (result encoded junk : Cell → Nat) {depth : Nat}
    (enough : (numRows * numCols).toNat < depth) :
    ∃ maze content, generate rand numRows numCols depth memory = some maze ∧
      generatorMain rand numRows numCols depth memory result = some (some content) ∧
      ∃ p : (openings numRows numCols maze).Path ⟨start, startInside⟩ ⟨goal, goalInside⟩,
        (∀ q : (openings numRows numCols maze).Path ⟨start, startInside⟩ ⟨goal, goalInside⟩, q = p) ∧
        solverMain false numRows numCols start goal depth memory' encoded junk content =
          some (.wrote 1 (text "PRUNED\n" ++ (p.1.support.map Subtype.val).flatMap line)) := by
  obtain ⟨maze, drawn, walked, perfect⟩ := drunkenWalk_perfect rand rows cols memory (Nat.le_of_lt enough)
  have generated : generate rand numRows numCols depth memory = some maze := by
    rw [generate, walked]
    rfl
  have encodedSame : ∀ c ∈ grid numRows numCols, encodeMaze numRows numCols maze result c = encodeRoom (maze c) :=
    fun c inside => forEach_apply inside
  have small : ∀ c ∈ grid numRows numCols, encodeMaze numRows numCols maze result c < 16 := by
    intro c inside
    rw [encodedSame c inside]
    exact encodeRoom_lt _
  obtain ⟨encoded', read, same⟩ := readEncodedMaze_written cols small junk encoded
  have wrote : generatorMain rand numRows numCols depth memory result =
      some (some (writeEncodedMaze numRows numCols (encodeMaze numRows numCols maze result))) := by
    rw [generatorMain, if_pos ⟨rows, cols⟩, generated]
    rfl
  obtain ⟨p, unique, prints⟩ := perfect.solved startInside goalInside memory'
    (fun c inside => (same c inside).trans (encodedSame c inside)) enough
  exact ⟨maze, _, generated, wrote, p, unique, (solverMain_reads startInside goalInside read).trans prints⟩

theorem solver_prints_generated_path_two_by_two :
    ∃ maze content, generate (fun k => k) 2 2 5 (fun _ => ⟨0, 0, 0, 0, 0, 0, 0, none⟩) = some maze ∧
      generatorMain (fun k => k) 2 2 5 (fun _ => ⟨0, 0, 0, 0, 0, 0, 0, none⟩) (fun _ => 0) = some (some content) ∧
      ∃ p : (openings 2 2 maze).Path ⟨(0, 0), mem_grid.mpr (by decide)⟩ ⟨(1, 1), mem_grid.mpr (by decide)⟩,
        (∀ q : (openings 2 2 maze).Path ⟨(0, 0), mem_grid.mpr (by decide)⟩ ⟨(1, 1), mem_grid.mpr (by decide)⟩, q = p) ∧
        solverMain false 2 2 (0, 0) (1, 1) 5 (fun _ => ⟨0, 0, 0, 0, 0, 0, 0, none⟩) (fun _ => 0) (fun _ => 0) content =
          some (.wrote 1 (text "PRUNED\n" ++ (p.1.support.map Subtype.val).flatMap line)) :=
  solver_prints_generated_path _ (by decide) (by decide) _ _ _ _ _ _ _ (by decide)

end Cs1330.Maze
